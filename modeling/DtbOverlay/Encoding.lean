import DtbOverlay.NextTag

/-! The structure block as spec section 6 lays it out, the format `fdt_next_tag` decodes:
records, each a big-endian tag word and its payload padded to 4 bytes, written one after
another. A tree is written in preorder, with any number of `FDT_NOP` records between
records, and `FDT_END` closes the block. Nothing in part_000 writes this format; it is what
the walkers are checked against. -/
namespace DtbOverlay

/-- A node name: bytes without NUL. -/
structure NodeName where
  bytes : List UInt8
  nul_free : (0 : UInt8) ∉ bytes

/-- One record of the structure block. -/
inductive Record where
  | beginNode (name : NodeName)
  | prop (nameoff : UInt32) (value : List UInt8)
  | endNode
  | nop
  | end_

/-- The tag word of a record. -/
def Record.tag : Record → UInt32
  | .beginNode _ => FDT_BEGIN_NODE
  | .prop _ _ => FDT_PROP
  | .endNode => FDT_END_NODE
  | .nop => FDT_NOP
  | .end_ => FDT_END

/-- `n` rounded up to a multiple of 4. -/
def align4 (n : Nat) : Nat := (n + 3) / 4 * 4

/-- The big-endian bytes of a word. -/
def be32 (x : UInt32) : List UInt8 :=
  [UInt8.ofNat (x.toNat / 2 ^ 24), UInt8.ofNat (x.toNat / 2 ^ 16), UInt8.ofNat (x.toNat / 2 ^ 8),
    UInt8.ofNat x.toNat]

@[simp] theorem be32_length (x : UInt32) : (be32 x).length = 4 := rfl

section Layout
variable (old : Bool)

/-- Before version 16 a value of 8 bytes or more is 8-aligned in the block: a property record
written at `o` has 4 pad bytes before its value unless `o + 12` is a multiple of 8. -/
def valuePad (o : Nat) (value : List UInt8) : Nat :=
  if old ∧ 8 ≤ value.length ∧ (o + 12) % 8 ≠ 0 then 4 else 0

/-- The length of a record written at offset `o`. -/
def Record.size (o : Nat) : Record → Nat
  | .beginNode name => 4 + align4 (name.bytes.length + 1)
  | .prop _ value => 12 + valuePad old o value + align4 value.length
  | _ => 4

/-- The bytes of a record written at offset `o`; padding bytes are zero. -/
def Record.encode (o : Nat) : Record → List UInt8
  | .beginNode name =>
    be32 FDT_BEGIN_NODE ++ name.bytes ++
      List.replicate (align4 (name.bytes.length + 1) - name.bytes.length) 0
  | .prop nameoff value =>
    be32 FDT_PROP ++ be32 (UInt32.ofNat value.length) ++ be32 nameoff ++
      List.replicate (valuePad old o value) 0 ++ value ++
      List.replicate (align4 value.length - value.length) 0
  | r => be32 r.tag

/-- The offset just past the records `rs` written from offset `o`. -/
def endOffset : Nat → List Record → Nat
  | o, [] => o
  | o, r :: rs => endOffset (o + r.size old o) rs

/-- The bytes of the records `rs` written from offset `o`. -/
def encodeFrom : Nat → List Record → List UInt8
  | _, [] => []
  | o, r :: rs => r.encode old o ++ encodeFrom (o + r.size old o) rs

/-- Each record of `rs` with the offset it is written at. -/
def layout : Nat → List Record → List (Nat × Record)
  | _, [] => []
  | o, r :: rs => (o, r) :: layout (o + r.size old o) rs

theorem Record.size_mod_four (o : Nat) (r : Record) : r.size old o % 4 = 0 := by
  cases r <;> simp only [Record.size, valuePad, align4] <;> first | omega | split_ifs <;> omega

theorem Record.four_le_size (o : Nat) (r : Record) : 4 ≤ r.size old o := by
  cases r <;> simp only [Record.size] <;> omega

theorem Record.encode_length (o : Nat) (r : Record) : (r.encode old o).length = r.size old o := by
  have h : ∀ n, n ≤ align4 n := fun n => by unfold align4; omega
  cases r with
  | beginNode name =>
    have := h (name.bytes.length + 1)
    simp only [Record.encode, Record.size, be32, List.length_append, List.length_replicate,
      List.length_cons, List.length_nil]
    omega
  | prop nameoff value =>
    have := h value.length
    simp only [Record.encode, Record.size, be32, List.length_append, List.length_replicate,
      List.length_cons, List.length_nil]
    omega
  | _ => rfl

@[simp] theorem endOffset_nil (o : Nat) : endOffset old o [] = o := rfl

@[simp] theorem endOffset_cons (o : Nat) (r : Record) (rs : List Record) :
    endOffset old o (r :: rs) = endOffset old (o + r.size old o) rs := rfl

theorem endOffset_append (o : Nat) (rs rs' : List Record) :
    endOffset old o (rs ++ rs') = endOffset old (endOffset old o rs) rs' := by
  induction rs generalizing o with
  | nil => rfl
  | cons r rs ih => exact ih _

/-- Every record takes at least one word. -/
theorem le_endOffset (o : Nat) (rs : List Record) : o + 4 * rs.length ≤ endOffset old o rs := by
  induction rs generalizing o with
  | nil => simp
  | cons r rs ih =>
    have := ih (o + r.size old o)
    have := r.four_le_size old o
    simp only [endOffset_cons, List.length_cons]
    omega

theorem endOffset_mod_four {o : Nat} (rs : List Record) (h : o % 4 = 0) :
    endOffset old o rs % 4 = 0 := by
  induction rs generalizing o with
  | nil => exact h
  | cons r rs ih => exact ih (by have := r.size_mod_four old o; omega)

theorem endOffset_replicate_nop (o k : Nat) :
    endOffset old o (List.replicate k .nop) = o + 4 * k := by
  induction k generalizing o with
  | zero => rfl
  | succ k ih => rw [List.replicate_succ, endOffset_cons, ih]; simp only [Record.size]; omega

theorem encodeFrom_append (o : Nat) (rs rs' : List Record) :
    encodeFrom old o (rs ++ rs') =
      encodeFrom old o rs ++ encodeFrom old (endOffset old o rs) rs' := by
  induction rs generalizing o with
  | nil => rfl
  | cons r rs ih =>
    show r.encode old o ++ encodeFrom old _ (rs ++ rs') =
      (r.encode old o ++ encodeFrom old _ rs) ++ _
    rw [ih, List.append_assoc]
    rfl

theorem encodeFrom_length (o : Nat) (rs : List Record) :
    o + (encodeFrom old o rs).length = endOffset old o rs := by
  induction rs generalizing o with
  | nil => rfl
  | cons r rs ih =>
    simp only [encodeFrom, List.length_append, Record.encode_length, endOffset_cons, ← ih]
    omega

end Layout

/-- Records written to a block of a version before 16 follow the 8-byte value rule. -/
def legacy (fdt : Blob) : Bool := decide ((fdtVersion fdt).toNat < 16)

/-- Byte `i` of `bytes` is byte `off_dt_struct + o + i` of the blob. -/
def HoldsBytes (fdt : Blob) (o : Nat) (bytes : List UInt8) : Prop :=
  ∀ i (h : i < bytes.length), fdt.byte ((fdtOffDtStruct fdt).toNat + o + i) = bytes.get ⟨i, h⟩

theorem HoldsBytes.left {fdt : Blob} {o : Nat} {a b : List UInt8} (h : HoldsBytes fdt o (a ++ b)) :
    HoldsBytes fdt o a := fun i hi => by
  rw [h i (by rw [List.length_append]; omega)]
  exact List.getElem_append_left hi

theorem HoldsBytes.right {fdt : Blob} {o : Nat} {a b : List UInt8} (h : HoldsBytes fdt o (a ++ b)) :
    HoldsBytes fdt (o + a.length) b := fun i hi => by
  rw [show (fdtOffDtStruct fdt).toNat + (o + a.length) + i =
      (fdtOffDtStruct fdt).toNat + o + (a.length + i) by omega,
    h (a.length + i) (by rw [List.length_append]; omega)]
  simp only [List.get_eq_getElem, List.getElem_append_right (Nat.le_add_right _ _),
    Nat.add_sub_cancel_left]

/-- A blob whose bytes are `head` followed by `bytes`, with its structure block right after
`head`, holds `bytes` at the start of that block. -/
theorem HoldsBytes.of_getD {fdt : Blob} {head bytes : List UInt8}
    (hb : ∀ i, fdt.byte i = (head ++ bytes).getD i 0)
    (hs : (fdtOffDtStruct fdt).toNat = head.length) : HoldsBytes fdt 0 bytes := fun i hi => by
  rw [hb, hs, Nat.add_zero, List.getD_eq_getElem _ _ (by simp only [List.length_append]; omega),
    List.getElem_append_right (by omega)]
  simp only [Nat.add_sub_cancel_left, List.get_eq_getElem]

theorem InStruct.mono {fdt : Blob} {e e' : Nat} (h : InStruct fdt e) (he : e' ≤ e) :
    InStruct fdt e' :=
  ⟨by have := h.1; omega, fun hv => by have := h.2 hv; omega⟩

/-- The structure block of `fdt` holds the records `rs` from offset `o`, within the block. -/
structure Holds (fdt : Blob) (o : Nat) (rs : List Record) : Prop where
  aligned : o % 4 = 0
  inStruct : InStruct fdt (endOffset (legacy fdt) o rs)
  bytes : HoldsBytes fdt o (encodeFrom (legacy fdt) o rs)

namespace Holds
variable {fdt : Blob} {o : Nat} {rs rs' : List Record}

theorem left (h : Holds fdt o (rs ++ rs')) : Holds fdt o rs :=
  ⟨h.aligned, h.inStruct.mono (by
    rw [endOffset_append]; have := le_endOffset (legacy fdt) (endOffset (legacy fdt) o rs) rs'
    omega), by have := h.bytes; rw [encodeFrom_append] at this; exact this.left⟩

theorem right (h : Holds fdt o (rs ++ rs')) : Holds fdt (endOffset (legacy fdt) o rs) rs' :=
  ⟨endOffset_mod_four _ rs h.aligned, by have := h.inStruct; rwa [endOffset_append] at this, by
    have := h.bytes
    rw [encodeFrom_append] at this
    have := this.right
    rwa [encodeFrom_length] at this⟩

theorem tail {r : Record} (h : Holds fdt o (r :: rs)) :
    Holds fdt (o + r.size (legacy fdt) o) rs :=
  @right fdt o [r] rs h

/-- The record at the head, alone. -/
theorem head {r : Record} (h : Holds fdt o (r :: rs)) :
    InStruct fdt (o + r.size (legacy fdt) o) ∧ HoldsBytes fdt o (r.encode (legacy fdt) o) :=
  ⟨(@left fdt o [r] rs h).inStruct, (@left fdt o [r] rs h).bytes.left⟩

end Holds

/-- Every record of `layout` starts a suffix of the block that the blob holds. -/
theorem Holds.of_mem_layout {fdt : Blob} : ∀ {o : Nat} {rs : List Record}, Holds fdt o rs →
    ∀ {p : Nat × Record}, p ∈ layout (legacy fdt) o rs → ∃ rest, Holds fdt p.1 (p.2 :: rest)
  | _, [], _, _, hp => absurd hp (List.not_mem_nil _)
  | _, _ :: rs, h, _, hp => by
    rcases List.mem_cons.mp hp with rfl | hp
    · exact ⟨rs, h⟩
    · exact Holds.of_mem_layout h.tail hp

/-- A property, with the number of `FDT_NOP` records written before it. -/
structure Property where
  nops : Nat
  nameoff : UInt32
  value : List UInt8

/-- The records of a property. -/
def Property.records (p : Property) : List Record :=
  List.replicate p.nops .nop ++ [.prop p.nameoff p.value]

/-- A node: the number of `FDT_NOP` records before its `FDT_BEGIN_NODE`, its name, its
properties and children, and the number of `FDT_NOP` records before its `FDT_END_NODE`. Every
place between two records of a tree is before exactly one record, so these counts describe
every placement of `FDT_NOP` records. -/
inductive Node where
  | mk (nops : Nat) (name : NodeName) (props : List Property) (children : List Node)
      (endNops : Nat)

def Node.nops : Node → Nat
  | .mk nops .. => nops

mutual
/-- The records of a node from its `FDT_BEGIN_NODE` on. -/
def Node.body : Node → List Record
  | .mk _ name props children endNops =>
    .beginNode name :: (props.flatMap Property.records ++ Node.forestRecords children ++
      List.replicate endNops .nop ++ [.endNode])

/-- The records of sibling nodes, one after another. -/
def Node.forestRecords : List Node → List Record
  | [] => []
  | c :: cs => List.replicate c.nops .nop ++ c.body ++ Node.forestRecords cs
end

/-- The records of a node. -/
def Node.records (n : Node) : List Record := List.replicate n.nops .nop ++ n.body

/-- The records of a structure block holding the tree `root`: its records, `nops` `FDT_NOP`
records, and `FDT_END`. -/
def blockRecords (root : Node) (nops : Nat) : List Record :=
  root.records ++ List.replicate nops .nop ++ [.end_]

theorem Property.end_not_mem_records (ps : List Property) :
    Record.end_ ∉ ps.flatMap Property.records := by
  simp [Property.records, List.mem_replicate]

mutual
theorem Node.end_not_mem_body : ∀ n : Node, Record.end_ ∉ n.body
  | .mk _ _ props children _ => by
    have := Property.end_not_mem_records props
    have := Node.end_not_mem_forestRecords children
    simp_all [Node.body, List.mem_replicate]

theorem Node.end_not_mem_forestRecords : ∀ cs : List Node, Record.end_ ∉ Node.forestRecords cs
  | [] => List.not_mem_nil _
  | c :: cs => by
    have := Node.end_not_mem_body c
    have := Node.end_not_mem_forestRecords cs
    simp_all [Node.forestRecords, List.mem_replicate]
end

/-- `FDT_END` closes a block and appears nowhere before. -/
theorem end_not_mem_block (root : Node) (nops : Nat) :
    Record.end_ ∉ root.records ++ List.replicate nops .nop := by
  have := Node.end_not_mem_body root
  simp_all [Node.records, List.mem_replicate]

end DtbOverlay
