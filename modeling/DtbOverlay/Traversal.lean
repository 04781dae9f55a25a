import DtbOverlay.NextNode
import DtbOverlay.RoundTrip

/-! `fdt_next_node` over a block that holds a tree. Each call returns the next node in preorder
and, with a depth pointer, its depth below the node the walk started at; the walk leaves the
start node's subtree with depth -1 or, with no depth pointer, ends at `FDT_END` with
`-FDT_ERR_NOTFOUND`. One lemma per record kind gives a pass of the loop; an induction over
nodes and sibling lists gives the walk. -/
namespace DtbOverlay

/-- Starting from the result `first`, calling `next` on each value returned gives `es` in turn,
and the call after the last of them (`first` itself when there is none) is `last`. -/
def Yields {α : Type} (next : α → Except Fault α) :
    Except Fault α → List α → Except Fault α → Prop
  | first, [], last => first = last
  | first, e :: es, last => first = .ok e ∧ Yields next (next e) es last

section Yields
variable {α : Type} {next : α → Except Fault α}

theorem Yields.append {x y z : Except Fault α} {es es' : List α} (h : Yields next x es y)
    (h' : Yields next y es' z) : Yields next x (es ++ es') z := by
  induction es generalizing x with
  | nil => exact (h : x = y) ▸ h'
  | cons e es ih => exact ⟨h.1, ih h.2⟩

theorem Yields.split {x z : Except Fault α} {es es' : List α} (h : Yields next x (es ++ es') z) :
    ∃ y, Yields next x es y ∧ Yields next y es' z := by
  induction es generalizing x with
  | nil => exact ⟨x, rfl, h⟩
  | cons e es ih =>
    obtain ⟨y, h1, h2⟩ := ih h.2
    exact ⟨y, ⟨h.1, h1⟩, h2⟩

/-- A run that ends in a value is a chain of calls. -/
theorem Yields.chain {a b : α} {es : List α} (h : Yields next (next a) es (.ok b)) :
    List.Chain' (fun x y => next x = .ok y) (a :: es ++ [b]) := by
  induction es generalizing a with
  | nil => exact List.chain'_pair.mpr h
  | cons e es ih => exact List.chain'_cons.mpr ⟨h.1, ih h.2⟩

end Yields

/-- `*depth` at depth `j` below the start of a walk, or `none` for a `NULL` depth pointer. -/
def depthAt (tracked : Bool) (j : Nat) : Option CInt :=
  if tracked then some (CInt.ofInt j) else none

theorem depthAt_succ (t : Bool) {j : Nat} (hj : j + 1 < 2 ^ 31) :
    (depthAt t j).map (fun x => CInt.ofInt (x.val + 1)) = depthAt t (j + 1) := by
  cases t <;> simp [depthAt, CInt.ofInt_natCast_val (show j < 2 ^ 31 by omega)]

section Positions
variable (old : Bool)

mutual
/-- The nodes of `n` in preorder, each with the offset of its `FDT_BEGIN_NODE` and its depth,
when `n`'s `FDT_BEGIN_NODE` is at offset `b` and `n` is at depth `j`. -/
def Node.nodesAt : Node → Nat → Nat → List (Node × Nat × Nat)
  | .mk nops name props children endNops, b, j =>
    (.mk nops name props children endNops, b, j) ::
      Node.forestNodesAt children
        (endOffset old b (.beginNode name :: props.flatMap Property.records)) (j + 1)

/-- The nodes of sibling subtrees whose records start at offset `o`, at depth `j`. -/
def Node.forestNodesAt : List Node → Nat → Nat → List (Node × Nat × Nat)
  | [], _, _ => []
  | c :: cs, o, j =>
    c.nodesAt (o + 4 * c.nops) j ++ Node.forestNodesAt cs (endOffset old o c.records) j
end

end Positions

/-- The value and `*depth` that a call of `fdt_next_node` leaves at a node. -/
def nodeEntry (t : Bool) (e : Node × Nat × Nat) : CInt × Option CInt :=
  (CInt.ofInt e.2.1, depthAt t e.2.2)

/-- `FDT_PROP` and `FDT_NOP` records, which the loop of `fdt_next_node` passes over. -/
def Record.Skip : Record → Prop
  | .prop _ _ => True
  | .nop => True
  | _ => False

theorem Record.tag_of_skip : ∀ {r : Record}, r.Skip → r.tag = FDT_PROP ∨ r.tag = FDT_NOP
  | .prop _ _, _ => .inl rfl
  | .nop, _ => .inr rfl

theorem skip_replicate_nop (k : Nat) : ∀ r ∈ List.replicate k Record.nop, r.Skip := by
  intro r hr
  rw [List.eq_of_mem_replicate hr]
  trivial

theorem skip_props (ps : List Property) : ∀ r ∈ ps.flatMap Property.records, r.Skip := by
  intro r hr
  obtain ⟨p, -, hr⟩ := List.mem_flatMap.mp hr
  rcases List.mem_append.mp hr with hr | hr
  · exact skip_replicate_nop _ r hr
  · rw [List.mem_singleton.mp hr]
    trivial

/-- The records of a node, in the segments the walk passes through. -/
theorem Node.records_mk (nops : Nat) (name : NodeName) (props : List Property)
    (children : List Node) (endNops : Nat) (rest : List Record) :
    (Node.mk nops name props children endNops).records ++ rest =
      List.replicate nops .nop ++ (.beginNode name :: (props.flatMap Property.records ++
        (Node.forestRecords children ++ (List.replicate endNops .nop ++ (.endNode :: rest))))) := by
  simp [Node.records, Node.body, Node.nops]

theorem Node.body_mk (nops : Nat) (name : NodeName) (props : List Property)
    (children : List Node) (endNops : Nat) (rest : List Record) :
    (Node.mk nops name props children endNops).body ++ rest =
      .beginNode name :: (props.flatMap Property.records ++
        (Node.forestRecords children ++ (List.replicate endNops .nop ++ (.endNode :: rest)))) := by
  simp [Node.body]

theorem Node.records_eq (n : Node) : n.records = List.replicate n.nops .nop ++ n.body := rfl

def Node.children : Node → List Node
  | .mk _ _ _ children _ => children

/-- Where the records of a node's children start, its `FDT_BEGIN_NODE` being at `b`. -/
def Node.childrenStart (old : Bool) : Node → Nat → Nat
  | .mk _ name props _ _, b => endOffset old b (.beginNode name :: props.flatMap Property.records)

theorem Node.nodesAt_eq (old : Bool) (n : Node) (b j : Nat) :
    n.nodesAt old b j =
      (n, b, j) :: Node.forestNodesAt old n.children (n.childrenStart old b) (j + 1) := by
  cases n; rfl

theorem Node.forestRecords_cons (c : Node) (cs : List Node) (rest : List Record) :
    Node.forestRecords (c :: cs) ++ rest = c.records ++ (Node.forestRecords cs ++ rest) := by
  simp [Node.forestRecords, Node.records]

section Loop
variable {fdt : Blob} (hts : (fdtTotalsize fdt).toNat ≤ INT_MAX)
include hts

theorem fdtNextNodeBody_of_holds {o : Nat} {r : Record} {rs : List Record}
    (h : Holds fdt o (r :: rs)) (d : Option CInt) :
    fdtNextNodeBody 0 fdt (CInt.ofInt o, d) =
      .ok (fdtNextNodeSwitch (CInt.ofInt o) d r.tag
        (CInt.ofInt ((o + r.size (legacy fdt) o : Nat) : Int))) :=
  fdtNextNodeBody_of_nextTag (fdtNextTag_of_holds hts h)

/-- The loop passes over `FDT_PROP` and `FDT_NOP` records, one pass each. -/
theorem loop_skip : ∀ {rs : List Record} {o : Nat} {rest : List Record} (d : Option CInt)
    (N : Nat), (∀ r ∈ rs, r.Skip) → Holds fdt o (rs ++ rest) →
    doWhile (fdtNextNodeBody 0 fdt) (N + rs.length) (CInt.ofInt o, d) =
      doWhile (fdtNextNodeBody 0 fdt) N (CInt.ofInt (endOffset (legacy fdt) o rs), d)
  | [], _, _, _, _, _, _ => rfl
  | r :: rs, o, rest, d, N, hs, h => by
    have hb := fdtNextNodeBody_of_holds hts h d
    rw [fdtNextNodeSwitch_skip (Record.tag_of_skip (hs r (List.mem_cons_self r rs)))] at hb
    rw [List.length_cons, ← Nat.add_assoc, doWhile_next hb, endOffset_cons]
    exact loop_skip d N (fun r' hr' => hs r' (List.mem_cons_of_mem r hr')) h.tail

theorem loop_skip_sub {rs : List Record} {o N : Nat} {rest : List Record} (d : Option CInt)
    (hs : ∀ r ∈ rs, r.Skip) (h : Holds fdt o (rs ++ rest)) (hN : rs.length ≤ N) :
    doWhile (fdtNextNodeBody 0 fdt) N (CInt.ofInt o, d) =
      doWhile (fdtNextNodeBody 0 fdt) (N - rs.length)
        (CInt.ofInt (endOffset (legacy fdt) o rs), d) := by
  obtain ⟨K, rfl⟩ : ∃ K, N = K + rs.length := ⟨N - rs.length, by omega⟩
  rw [loop_skip hts d K hs h, Nat.add_sub_cancel]

/-- At an `FDT_BEGIN_NODE` record the loop ends, one level deeper. -/
theorem loop_beginNode {o : Nat} {name : NodeName} {rest : List Record}
    (h : Holds fdt o (.beginNode name :: rest)) (d : Option CInt) (N : Nat) :
    doWhile (fdtNextNodeBody 0 fdt) (N + 1) (CInt.ofInt o, d) =
      .ok (CInt.ofInt o, d.map fun x => CInt.ofInt (x.val + 1)) :=
  doWhile_ret ((fdtNextNodeBody_of_holds hts h d).trans
    (congrArg Except.ok (fdtNextNodeSwitch_beginNode _ _ _)))

/-- At an `FDT_END_NODE` record above the start depth the loop goes on, one level up. -/
theorem loop_endNode {o : Nat} {rest : List Record} (h : Holds fdt o (.endNode :: rest))
    (t : Bool) {j : Nat} (hj : j + 1 < 2 ^ 31) (N : Nat) :
    doWhile (fdtNextNodeBody 0 fdt) (N + 1) (CInt.ofInt o, depthAt t (j + 1)) =
      doWhile (fdtNextNodeBody 0 fdt) N (CInt.ofInt ((o + 4 : Nat) : Int), depthAt t j) := by
  have hb := fdtNextNodeBody_of_holds hts h (depthAt t (j + 1))
  rw [show Record.tag .endNode = FDT_END_NODE from rfl, fdtNextNodeSwitch_endNode] at hb
  cases t with
  | false => exact doWhile_next hb
  | true =>
    have hv : (CInt.ofInt ((CInt.ofInt ((j + 1 : Nat) : Int)).val - 1)) = CInt.ofInt j := by
      rw [CInt.ofInt_natCast_val hj, show ((j + 1 : Nat) : Int) - 1 = j by omega]
    simp only [depthAt, ↓reduceIte, hv, CInt.ofInt_natCast_val (show j < 2 ^ 31 by omega)] at hb
    rw [if_neg (by omega)] at hb
    exact doWhile_next hb

/-- At the start node's `FDT_END_NODE` the loop ends with depth -1. -/
theorem loop_endNode_exit {o : Nat} {rest : List Record} (h : Holds fdt o (.endNode :: rest))
    (N : Nat) :
    doWhile (fdtNextNodeBody 0 fdt) (N + 1) (CInt.ofInt o, depthAt true 0) =
      .ok (CInt.ofInt ((o + 4 : Nat) : Int), some (CInt.ofInt (-1))) := by
  have hb := fdtNextNodeBody_of_holds hts h (depthAt true 0)
  rw [show Record.tag .endNode = FDT_END_NODE from rfl, fdtNextNodeSwitch_endNode] at hb
  simp only [depthAt, ↓reduceIte] at hb
  rw [if_pos (by decide)] at hb
  exact doWhile_ret hb

/-- At `FDT_END` the loop ends with `-FDT_ERR_NOTFOUND`. -/
theorem loop_end {o : Nat} {rest : List Record} (h : Holds fdt o (.end_ :: rest))
    (d : Option CInt) (N : Nat) :
    doWhile (fdtNextNodeBody 0 fdt) (N + 1) (CInt.ofInt o, d) =
      .ok (CInt.ofInt (-FDT_ERR_NOTFOUND), d) := by
  have hb := fdtNextNodeBody_of_holds hts h d
  rw [show Record.tag .end_ = FDT_END from rfl, fdtNextNodeSwitch_end d (by
    rw [CInt.ofInt_natCast_val (h.head.1.lt_two_pow hts)]; omega)] at hb
  exact doWhile_ret hb

/-- A call at a node runs the loop from the record after its `FDT_BEGIN_NODE`. -/
theorem fdtNextNode_of_beginNode {b : Nat} {name : NodeName} {rest : List Record}
    (h : Holds fdt b (.beginNode name :: rest)) (F : Nat) (d : Option CInt) :
    fdtNextNode 0 fdt F (CInt.ofInt b) d =
      doWhile (fdtNextNodeBody 0 fdt) F
        (CInt.ofInt ((b + (Record.beginNode name).size (legacy fdt) b : Nat) : Int), d) := by
  have he := h.head.1.lt_two_pow hts
  have hb := CInt.ofInt_natCast_val (n := b) (by omega)
  have h4 := h.aligned
  exact fdtNextNode_of_checkNodeOffset (by omega)
    (fdtCheckNodeOffset__of_nextTag (by omega) (by omega) (fdtNextTag_of_holds hts h))
    (by rw [CInt.ofInt_natCast_val he]; omega)

variable (F : Nat)

omit hts in
mutual
/-- The walk through a subtree: the loop, reaching the subtree's records at depth `j`, returns
its root; from there each call returns the next node of the subtree in preorder; the call at
its last node goes on past the subtree's `FDT_END_NODE` back at depth `j`. -/
theorem node_yields (hts : (fdtTotalsize fdt).toNat ≤ INT_MAX) :
    ∀ (n : Node) {o j M : Nat} {rest : List Record} (t : Bool),
    Holds fdt o (n.records ++ rest) → j + (n.records ++ rest).length < 2 ^ 31 →
    (n.records ++ rest).length ≤ F → n.nops < M →
    ∃ M', rest.length < M' ∧ Yields (fun e => fdtNextNode 0 fdt F e.1 e.2)
      (doWhile (fdtNextNodeBody 0 fdt) M (CInt.ofInt o, depthAt t j))
      ((n.nodesAt (legacy fdt) (o + 4 * n.nops) (j + 1)).map (nodeEntry t))
      (doWhile (fdtNextNodeBody 0 fdt) M'
        (CInt.ofInt (endOffset (legacy fdt) o n.records), depthAt t j))
  | .mk nops name props children endNops, o, j, M, rest, t, h, hj, hF, hM => by
    rw [Node.records_mk] at h hj hF
    simp only [List.length_append, List.length_replicate, List.length_cons] at hj hF
    simp only [Node.nops] at hM
    have h1 := h.right
    rw [endOffset_replicate_nop] at h1
    have h3 := h1.tail.right
    have h5 := h3.right.right
    rw [endOffset_replicate_nop] at h5
    obtain ⟨M1, hM1, hy⟩ := forest_yields hts children (j := j + 1)
      (M := F - (props.flatMap Property.records).length) t h3
      (by simp only [List.length_append, List.length_replicate, List.length_cons]; omega)
      (by simp only [List.length_append, List.length_replicate, List.length_cons]; omega)
      (by simp only [List.length_append, List.length_replicate, List.length_cons]; omega)
    simp only [List.length_append, List.length_replicate, List.length_cons] at hM1
    rw [loop_skip_sub hts _ (skip_replicate_nop endNops) h3.right
      (by rw [List.length_replicate]; omega), endOffset_replicate_nop, List.length_replicate,
      show M1 - endNops = (M1 - endNops - 1) + 1 by omega, loop_endNode hts h5 t (by omega)] at hy
    have hend : endOffset (legacy fdt) o (Node.mk nops name props children endNops).records =
        endOffset (legacy fdt) (endOffset (legacy fdt) (o + 4 * nops +
          (Record.beginNode name).size (legacy fdt) (o + 4 * nops)) (props.flatMap Property.records))
          (Node.forestRecords children) + 4 * endNops + 4 := by
      simp only [Node.records, Node.body, Node.nops, endOffset_append, endOffset_replicate_nop,
        endOffset_cons, List.cons_append, List.append_assoc, endOffset_nil]
      rfl
    refine ⟨M1 - endNops - 1, by omega, ?_⟩
    simp only [Node.nodesAt, Node.nops, List.map_cons, Yields]
    constructor
    · rw [loop_skip_sub hts _ (skip_replicate_nop nops) h (by rw [List.length_replicate]; omega),
        endOffset_replicate_nop, List.length_replicate, show M - nops = (M - nops - 1) + 1 by omega,
        loop_beginNode hts h1, depthAt_succ t (by omega)]
      rfl
    · show Yields _ (fdtNextNode 0 fdt F (CInt.ofInt ((o + 4 * nops : Nat) : Int))
        (depthAt t (j + 1))) _ _
      rw [fdtNextNode_of_beginNode hts h1, loop_skip_sub hts _ (skip_props props) h1.tail (by omega),
        hend, endOffset_cons]
      exact hy

/-- The walk through sibling subtrees, one after another. -/
theorem forest_yields (hts : (fdtTotalsize fdt).toNat ≤ INT_MAX) :
    ∀ (cs : List Node) {o j M : Nat} {rest : List Record} (t : Bool),
    Holds fdt o (Node.forestRecords cs ++ rest) →
    j + (Node.forestRecords cs ++ rest).length < 2 ^ 31 →
    (Node.forestRecords cs ++ rest).length ≤ F → (Node.forestRecords cs ++ rest).length < M →
    ∃ M', rest.length < M' ∧ Yields (fun e => fdtNextNode 0 fdt F e.1 e.2)
      (doWhile (fdtNextNodeBody 0 fdt) M (CInt.ofInt o, depthAt t j))
      ((Node.forestNodesAt (legacy fdt) cs o (j + 1)).map (nodeEntry t))
      (doWhile (fdtNextNodeBody 0 fdt) M'
        (CInt.ofInt (endOffset (legacy fdt) o (Node.forestRecords cs)), depthAt t j))
  | [], _, _, M, _, _, _, _, _, hM => ⟨M, by simpa [Node.forestRecords] using hM, rfl⟩
  | c :: cs, o, j, M, rest, t, h, hj, hF, hM => by
    rw [Node.forestRecords_cons] at h hj hF hM
    obtain ⟨M1, hM1, hy1⟩ := node_yields hts c (j := j) (M := M) t h hj hF (by
      simp only [Node.records, List.length_append, List.length_replicate] at hM; omega)
    obtain ⟨M2, hM2, hy2⟩ := forest_yields hts cs (j := j) t h.right
      (by simp only [List.length_append] at hj ⊢; omega)
      (by simp only [List.length_append] at hF ⊢; omega) hM1
    refine ⟨M2, hM2, ?_⟩
    rw [Node.forestNodesAt, List.map_append, show Node.forestRecords (c :: cs) =
      c.records ++ Node.forestRecords cs by simpa using Node.forestRecords_cons c cs [],
      endOffset_append]
    exact hy1.append hy2
end

omit hts in
/-- With a `NULL` depth pointer the walk does not depend on the depths. -/
theorem map_nodeEntry_false (l l' : List (Node × Nat × Nat)) (h : l.map (·.2.1) = l'.map (·.2.1)) :
    l.map (nodeEntry false) = l'.map (nodeEntry false) := by
  have hf : nodeEntry false =
      (fun o : Nat => (CInt.ofInt o, (none : Option CInt))) ∘ (·.2.1) := rfl
  rw [hf, ← List.map_map, h, List.map_map]

omit hts in
mutual
theorem Node.nodesAt_offsets : ∀ (n : Node) (b j j' : Nat),
    (n.nodesAt (legacy fdt) b j).map (·.2.1) = (n.nodesAt (legacy fdt) b j').map (·.2.1)
  | .mk _ _ _ children _, b, j, j' => by
    simp only [Node.nodesAt, List.map_cons, Node.forestNodesAt_offsets children _ (j + 1) (j' + 1)]

theorem Node.forestNodesAt_offsets : ∀ (cs : List Node) (o j j' : Nat),
    (Node.forestNodesAt (legacy fdt) cs o j).map (·.2.1) =
      (Node.forestNodesAt (legacy fdt) cs o j').map (·.2.1)
  | [], _, _, _ => rfl
  | c :: cs, o, j, j' => by
    simp only [Node.forestNodesAt, List.map_append, Node.nodesAt_offsets c _ j j',
      Node.forestNodesAt_offsets cs _ j j']
end

/-- From a node with `*depth = 0`, the calls of `fdt_next_node` run through the subtrees of
its children, and the call after them returns the offset past the node's `FDT_END_NODE` with
depth -1. -/
theorem fdtNextNode_children_yields {p : Node} {b : Nat} {rest : List Record}
    (h : Holds fdt b (p.body ++ rest)) (F : Nat) (hF : (p.body ++ rest).length ≤ F) :
    Yields (fun e => fdtNextNode 0 fdt F e.1 e.2)
      (fdtNextNode 0 fdt F (CInt.ofInt b) (depthAt true 0))
      ((Node.forestNodesAt (legacy fdt) p.children (p.childrenStart (legacy fdt) b) 1).map
        (nodeEntry true))
      (.ok (CInt.ofInt (endOffset (legacy fdt) b p.body), some (CInt.ofInt (-1)))) := by
  have hn := (le_endOffset (legacy fdt) b (p.body ++ rest)).trans_lt (h.inStruct.lt_two_pow hts)
  obtain ⟨nops, name, props, children, endNops⟩ := p
  rw [Node.body_mk] at h hF hn
  simp only [List.length_append, List.length_replicate, List.length_cons] at hF hn
  have h3 := h.tail.right
  have h5 := h3.right.right
  rw [endOffset_replicate_nop] at h5
  obtain ⟨M1, hM1, hy⟩ := forest_yields F hts children (j := 0)
    (M := F - (props.flatMap Property.records).length) true h3
    (by simp only [List.length_append, List.length_replicate, List.length_cons]; omega)
    (by simp only [List.length_append, List.length_replicate, List.length_cons]; omega)
    (by simp only [List.length_append, List.length_replicate, List.length_cons]; omega)
  simp only [List.length_append, List.length_replicate, List.length_cons] at hM1
  rw [loop_skip_sub hts _ (skip_replicate_nop endNops) h3.right
    (by rw [List.length_replicate]; omega), endOffset_replicate_nop, List.length_replicate,
    show M1 - endNops = (M1 - endNops - 1) + 1 by omega, loop_endNode_exit hts h5] at hy
  have hend : endOffset (legacy fdt) b (Node.mk nops name props children endNops).body =
      endOffset (legacy fdt) (endOffset (legacy fdt) (b +
        (Record.beginNode name).size (legacy fdt) b) (props.flatMap Property.records))
        (Node.forestRecords children) + 4 * endNops + 4 := by
    simp only [Node.body, endOffset_append, endOffset_replicate_nop, endOffset_cons,
      List.cons_append, List.append_assoc, endOffset_nil]
    rfl
  rw [fdtNextNode_of_beginNode hts h, loop_skip_sub hts _ (skip_props props) h.tail (by omega),
    hend]
  exact hy

/-- From a node with `*depth = 0`, each call of `fdt_next_node` returns the next descendant in
preorder with its depth below the node, and the call after the last descendant returns the
offset past the node's `FDT_END_NODE` with depth -1. -/
theorem fdtNextNode_descendants {p : Node} {b : Nat} {rest : List Record}
    (h : Holds fdt b (p.body ++ rest)) (F : Nat) (hF : (p.body ++ rest).length ≤ F) :
    List.Chain' (fun x y => fdtNextNode 0 fdt F x.1 x.2 = .ok y)
      ((p.nodesAt (legacy fdt) b 0).map (nodeEntry true) ++
        [(CInt.ofInt (endOffset (legacy fdt) b p.body), some (CInt.ofInt (-1)))]) := by
  rw [Node.nodesAt_eq, List.map_cons, List.cons_append]
  exact Yields.chain (fdtNextNode_children_yields hts h F hF)

/-- With a `NULL` depth pointer, from offset -1 each call of `fdt_next_node` returns the next
node of the tree in preorder, and the call after the last node returns `-FDT_ERR_NOTFOUND`. -/
theorem fdtNextNode_preorder {root : Node} {nops : Nat} (h : Holds fdt 0 (blockRecords root nops))
    (F : Nat) (hF : (blockRecords root nops).length ≤ F) :
    List.Chain' (fun x y => fdtNextNode 0 fdt F x.1 x.2 = .ok y)
      ((CInt.ofInt (-1), none) :: (root.nodesAt (legacy fdt) (4 * root.nops) 0).map (nodeEntry false) ++
        [(CInt.ofInt (-FDT_ERR_NOTFOUND), none)]) := by
  have hn := (le_endOffset (legacy fdt) 0 _).trans_lt (h.inStruct.lt_two_pow hts)
  rw [blockRecords, List.append_assoc] at h hF hn
  simp only [List.length_append, List.length_replicate, List.length_singleton] at hF hn
  have hr : root.nops < root.records.length := by
    simp only [Node.records_eq, List.length_append, List.length_replicate]
    obtain ⟨_, _, _, _, _⟩ := root
    simp only [Node.body, List.length_cons]; omega
  obtain ⟨M1, hM1, hy⟩ := node_yields F hts root (o := 0) (j := 0) (M := F) false h
    (by simp only [List.length_append, List.length_replicate, List.length_singleton]; omega)
    (by simp only [List.length_append, List.length_replicate, List.length_singleton]; omega)
    (by omega)
  simp only [List.length_append, List.length_replicate, List.length_singleton] at hM1
  have he := h.right.right
  rw [endOffset_replicate_nop] at he
  rw [loop_skip_sub hts _ (skip_replicate_nop nops) h.right (by rw [List.length_replicate]; omega),
    endOffset_replicate_nop, List.length_replicate, show M1 - nops = (M1 - nops - 1) + 1 by omega,
    loop_end hts he, Nat.zero_add,
    map_nodeEntry_false _ _ (Node.nodesAt_offsets root _ 1 0)] at hy
  refine Yields.chain ?_
  show Yields _ (fdtNextNode 0 fdt F (CInt.ofInt (-1)) none) _ _
  rw [fdtNextNode_of_neg (by decide)]
  exact hy

omit hts in
mutual
/-- Every node of a held subtree is held, with what follows it, at its `FDT_BEGIN_NODE`. -/
theorem Node.holds_of_mem_nodesAt : ∀ (n : Node) {o j : Nat} {rest : List Record}
    {e : Node × Nat × Nat}, Holds fdt o (n.records ++ rest) →
    e ∈ n.nodesAt (legacy fdt) (o + 4 * n.nops) j →
    ∃ rest', Holds fdt e.2.1 (e.1.body ++ rest') ∧
      (e.1.body ++ rest').length ≤ (n.records ++ rest).length
  | .mk nops name props children endNops, o, j, rest, e, h, he => by
    simp only [Node.nodesAt, Node.nops, List.mem_cons] at he
    rcases he with rfl | he
    · rw [Node.records_eq, List.append_assoc] at h
      have h1 := h.right
      rw [endOffset_replicate_nop] at h1
      exact ⟨rest, h1, by simp [Node.records_eq]⟩
    · have hl := Node.records_mk nops name props children endNops rest
      rw [hl] at h
      rw [endOffset_cons] at he
      have h1 := h.right
      rw [endOffset_replicate_nop] at h1
      obtain ⟨rest', h', hl'⟩ := Node.holds_of_mem_forestNodesAt children h1.tail.right he
      refine ⟨rest', h', hl'.trans ?_⟩
      rw [hl]
      simp only [List.length_append, List.length_replicate, List.length_cons]
      omega

theorem Node.holds_of_mem_forestNodesAt : ∀ (cs : List Node) {o j : Nat} {rest : List Record}
    {e : Node × Nat × Nat}, Holds fdt o (Node.forestRecords cs ++ rest) →
    e ∈ Node.forestNodesAt (legacy fdt) cs o j →
    ∃ rest', Holds fdt e.2.1 (e.1.body ++ rest') ∧
      (e.1.body ++ rest').length ≤ (Node.forestRecords cs ++ rest).length
  | [], _, _, _, _, _, he => absurd he (List.not_mem_nil _)
  | c :: cs, o, j, rest, e, h, he => by
    rw [Node.forestRecords_cons] at h ⊢
    rcases List.mem_append.mp he with he | he
    · exact Node.holds_of_mem_nodesAt c h he
    · obtain ⟨rest', h', hl'⟩ := Node.holds_of_mem_forestNodesAt cs h.right he
      exact ⟨rest', h', hl'.trans (by simp only [List.length_append]; omega)⟩
end

end Loop

/-- With no assumptions, on a blob that `fdt_check_header` accepts and whose structure block
holds a tree: (a) from every node, with `*depth = 0`, successive calls of `fdt_next_node`
return the node's descendants in preorder, each with its depth below the node, and then the
offset past the node's `FDT_END_NODE` with depth -1; (b) with a `NULL` depth pointer, from
offset -1 they return every node in preorder and then `-FDT_ERR_NOTFOUND`. Any `fuel` of at
least the number of records is enough for every call. -/
theorem fdtNextNode_walks_tree (root : Node) (nops : Nat) (fdt : Blob)
    (hacc : fdtCheckHeader 0 fdt = 0) (h : Holds fdt 0 (blockRecords root nops)) (F : Nat)
    (hF : (blockRecords root nops).length ≤ F) :
    (∀ e ∈ root.nodesAt (legacy fdt) (4 * root.nops) 0,
      List.Chain' (fun x y => fdtNextNode 0 fdt F x.1 x.2 = .ok y)
        ((e.1.nodesAt (legacy fdt) e.2.1 0).map (nodeEntry true) ++
          [(CInt.ofInt (endOffset (legacy fdt) e.2.1 e.1.body), some (CInt.ofInt (-1)))])) ∧
    List.Chain' (fun x y => fdtNextNode 0 fdt F x.1 x.2 = .ok y)
      ((CInt.ofInt (-1), none) :: (root.nodesAt (legacy fdt) (4 * root.nops) 0).map (nodeEntry false) ++
        [(CInt.ofInt (-FDT_ERR_NOTFOUND), none)]) := by
  have hts := fdtTotalsize_le_of_accepted hacc
  refine ⟨fun e he => ?_, fdtNextNode_preorder hts h F hF⟩
  have hb : Holds fdt 0 (root.records ++ (List.replicate nops .nop ++ [.end_])) := by
    rw [← List.append_assoc]; exact h
  obtain ⟨rest, h', hl⟩ := Node.holds_of_mem_nodesAt root hb (by rwa [Nat.zero_add])
  exact fdtNextNode_descendants hts h' F (hl.trans (by
    simp only [blockRecords, List.length_append] at hF ⊢; omega))

/-- The walks on `sampleBlob`, with fuel for its seven records. -/
theorem fdtNextNode_walks_sampleTree :
    fdtCheckHeader 0 sampleBlob = 0 ∧ Holds sampleBlob 0 (blockRecords sampleTree 0) ∧
      (blockRecords sampleTree 0).length ≤ 7 ∧
      (∀ e ∈ sampleTree.nodesAt (legacy sampleBlob) (4 * sampleTree.nops) 0,
        List.Chain' (fun x y => fdtNextNode 0 sampleBlob 7 x.1 x.2 = .ok y)
          ((e.1.nodesAt (legacy sampleBlob) e.2.1 0).map (nodeEntry true) ++
            [(CInt.ofInt (endOffset (legacy sampleBlob) e.2.1 e.1.body), some (CInt.ofInt (-1)))])) ∧
      List.Chain' (fun x y => fdtNextNode 0 sampleBlob 7 x.1 x.2 = .ok y)
        ((CInt.ofInt (-1), none) ::
          (sampleTree.nodesAt (legacy sampleBlob) (4 * sampleTree.nops) 0).map (nodeEntry false) ++
            [(CInt.ofInt (-FDT_ERR_NOTFOUND), none)]) :=
  ⟨sampleBlob_accepted, sampleBlob_holds, by decide,
    fdtNextNode_walks_tree sampleTree 0 sampleBlob sampleBlob_accepted sampleBlob_holds 7
      (by decide)⟩

end DtbOverlay
