import DtbOverlay.Encoding

/-! `fdt_next_tag` on a block the blob holds: at the offset of any record it returns the
record's tag and the offset of the record after it. This is the step lemma of every walk over
the structure block. -/
namespace DtbOverlay

theorem CInt.ofInt_natCast_val {n : Nat} (h : n < 2 ^ 31) : (CInt.ofInt n).val = n :=
  CInt.ofInt_val (by omega) (by omega)

private theorem u8_ofNat_toNat (n : Nat) : (UInt8.ofNat n).toNat = n % 256 := rfl

theorem CInt.toU32_natCast {n : Nat} (h : n < 2 ^ 31) : (CInt.ofInt n).toU32 = UInt32.ofNat n := by
  rw [CInt.toU32, CInt.ofInt_natCast_val h]
  congr 1
  omega

/-- The padding test of `fdt_next_tag`, `(offset - len) % 8`, is the alignment of the value's
start `a` when `offset = a + len` does not wrap. -/
theorem u32_sub_mod_eight_ne_zero {a b : Nat} (h : a + b < 2 ^ 32) :
    (UInt32.ofNat (a + b) - UInt32.ofNat b) % 8 ≠ 0 ↔ a % 8 ≠ 0 := by
  have key : ((UInt32.ofNat (a + b) - UInt32.ofNat b) % 8).toNat = a % 8 := by
    rw [UInt32.toNat_mod, UInt32.toNat_sub, UInt32.toNat_ofNat_of_lt (by unfold UInt32.size; omega),
      UInt32.toNat_ofNat_of_lt (by unfold UInt32.size; omega)]
    show (2 ^ 32 - b + (a + b)) % 2 ^ 32 % 8 = a % 8
    omega
  constructor
  · exact fun h1 h2 => h1 (UInt32.toNat.inj (by rw [key, h2]; rfl))
  · exact fun h1 h2 => h1 (by rw [← key, h2]; rfl)

/-- `fdt32_ld` reads back a word written big-endian. -/
theorem fdt32Ld_be32 {bp : Nat → UInt8} {p : Nat} {x : UInt32}
    (h : ∀ i (hi : i < 4), bp (p + i) = (be32 x).get ⟨i, hi⟩) : fdt32Ld bp p = x := by
  have hx : x.toNat < 2 ^ 32 := x.toNat_lt_size
  have h0 := h 0 (by decide)
  rw [Nat.add_zero] at h0
  apply UInt32.toNat.inj
  rw [fdt32Ld_toNat, h0, h 1 (by decide), h 2 (by decide), h 3 (by decide)]
  simp only [be32, List.get_eq_getElem, List.getElem_cons_zero, List.getElem_cons_succ,
    u8_ofNat_toNat]
  omega

theorem HoldsBytes.word {fdt : Blob} {o : Nat} {x : UInt32} {rest : List UInt8}
    (h : HoldsBytes fdt o (be32 x ++ rest)) :
    fdt32Ld fdt.byte ((fdtOffDtStruct fdt).toNat + o) = x :=
  fdt32Ld_be32 fun i hi => h.left i hi

/-- Every record starts with its tag word. -/
theorem Record.encode_eq_tag_append (old : Bool) (o : Nat) (r : Record) :
    ∃ rest, r.encode old o = be32 r.tag ++ rest := by
  cases r <;> simp only [Record.encode, Record.tag, List.append_assoc] <;> exact ⟨_, rfl⟩

section
variable {fdt : Blob} (hts : (fdtTotalsize fdt).toNat ≤ INT_MAX)
include hts

theorem InStruct.lt_two_pow {e : Nat} (h : InStruct fdt e) : e < 2 ^ 31 := by
  have := h.1; unfold INT_MAX at hts; omega

/-- `fdt_offset_ptr` accepts every span of the structure block. -/
theorem fdtOffsetPtr_of_le {o n e : Nat} (hI : InStruct fdt e) (hn : o + n ≤ e) :
    fdtOffsetPtr 0 fdt (CInt.ofInt o) (UInt32.ofNat n) =
      some ((fdtOffDtStruct fdt).toNat + o) := by
  have he := hI.lt_two_pow hts
  have hv := CInt.ofInt_natCast_val (n := o) (by omega)
  have hn' : (UInt32.ofNat n).toNat = n := UInt32.toNat_ofNat_of_lt (by unfold UInt32.size; omega)
  rw [fdtOffsetPtr_of_inStruct (by omega) (hI.mono (by omega)), hv, Int.toNat_natCast]

/-- The name loop of `fdt_next_tag` stops at the NUL after a name without NUL. -/
theorem fdtSkipName_of_holds {pad : List UInt8} :
    ∀ {name : List UInt8} {o : Nat}, (0 : UInt8) ∉ name → HoldsBytes fdt o (name ++ 0 :: pad) →
      InStruct fdt (o + name.length + 1) →
      fdtSkipName 0 fdt (CInt.ofInt o) =
        (some ((fdtOffDtStruct fdt).toNat + o + name.length),
          CInt.ofInt ((o + name.length + 1 : Nat) : Int))
  | [], o, _, hb, hI => by
    have hp := fdtOffsetPtr_of_le hts (n := 1) (o := o) hI (by simp)
    rw [fdtSkipName_of_nul 0 fdt hp (by simpa using hb 0 (by simp)),
      CInt.ofInt_natCast_val (hI.lt_two_pow hts |>.trans_le' (by simp))]
    rfl
  | c :: cs, o, hn, hb, hI => by
    have hp := fdtOffsetPtr_of_le hts (n := 1) (o := o) hI (by simp)
    have he := hI.lt_two_pow hts
    have h0 := hb 0 (by simp)
    simp only [Nat.add_zero, List.cons_append, List.get_eq_getElem, List.getElem_cons_zero] at h0
    have hc : fdt.byte ((fdtOffDtStruct fdt).toNat + o) ≠ 0 := by
      rw [h0]; exact fun (h : c = 0) => hn (h ▸ List.mem_cons_self c cs)
    have ih := @fdtSkipName_of_holds pad cs (o + 1)
      (fun h => hn (List.mem_cons_of_mem c h)) (by simpa using hb.right (a := [c]))
      (hI.mono (by simp; omega))
    rw [fdtSkipName_of_ne 0 fdt hp hc, CInt.ofInt_natCast_val (n := o) (by simp at he; omega)]
    rw [show (o : Int) + 1 = ((o + 1 : Nat) : Int) by push_cast; rfl, ih]
    simp only [List.length_cons, show ∀ k, o + 1 + k = o + (k + 1) from fun k => by omega,
      Nat.add_assoc]

/-- `fdt_next_tag` after its switch: the tag read, and the end `e` of the record rounded up to
a word once the closing `fdt_offset_ptr` accepts the span. -/
theorem fdtNextTag_of_switch {offset : CInt} {o e : Nat} {t : UInt32} (ho : offset.val = o)
    (hI : InStruct fdt e) (hoe : o + 4 ≤ e)
    (ht : fdt32Ld fdt.byte ((fdtOffDtStruct fdt).toNat + o) = t)
    (hs : fdtNextTagSwitch 0 fdt t (CInt.ofInt ((o + 4 : Nat) : Int)) = .ok (.next (CInt.ofInt e))) :
    fdtNextTag 0 fdt offset = .ok (t, CInt.ofInt ((align4 e : Nat) : Int)) := by
  have he := hI.lt_two_pow hts
  have hof : offset = CInt.ofInt o := by rw [← ho, CInt.ofInt_self]
  have hp : fdtOffsetPtr 0 fdt offset (UInt32.ofNat FDT_TAGSIZE) =
      some ((fdtOffDtStruct fdt).toNat + o) :=
    hof ▸ fdtOffsetPtr_of_le hts hI (by unfold FDT_TAGSIZE; omega)
  have hspan : fdtOffsetPtr 0 fdt offset (UInt32.ofNat (e - o)) =
      some ((fdtOffDtStruct fdt).toNat + o) :=
    hof ▸ fdtOffsetPtr_of_le hts hI (by omega)
  have he' := CInt.ofInt_natCast_val (n := e) he
  have hsub : (CInt.ofInt ((CInt.ofInt e).val - o)).toU32 = UInt32.ofNat (e - o) := by
    rw [he', show (e : Int) - o = ((e - o : Nat) : Int) by omega, CInt.toU32_natCast (by omega)]
  have halign : fdtTagalign (CInt.ofInt e) = CInt.ofInt ((align4 e : Nat) : Int) := by
    unfold fdtTagalign align4; rw [he']; congr 1
  unfold fdtNextTag
  rw [hp]
  dsimp only
  rw [ht, ho, show (o : Int) + FDT_TAGSIZE = ((o + 4 : Nat) : Int) by unfold FDT_TAGSIZE; omega, hs]
  dsimp only
  rw [hsub, hspan, if_neg (by simp), halign]

omit hts in
theorem fdtNextTagSwitch_word {t : UInt32} (ht : t = FDT_END ∨ t = FDT_END_NODE ∨ t = FDT_NOP)
    (offset : CInt) : fdtNextTagSwitch 0 fdt t offset = .ok (.next offset) := by
  unfold fdtNextTagSwitch
  rcases ht with rfl | rfl | rfl <;> rw [if_neg (by decide), if_neg (by decide), if_pos (by decide)]

theorem fdtNextTagSwitch_beginNode {offset : CInt} {o : Nat} {name pad : List UInt8}
    (ho : offset.val = o) (hn : (0 : UInt8) ∉ name) (hb : HoldsBytes fdt o (name ++ 0 :: pad))
    (hI : InStruct fdt (o + name.length + 1)) :
    fdtNextTagSwitch 0 fdt FDT_BEGIN_NODE offset =
      .ok (.next (CInt.ofInt ((o + name.length + 1 : Nat) : Int))) := by
  have hsk : fdtSkipName 0 fdt offset = (some ((fdtOffDtStruct fdt).toNat + o + name.length),
      CInt.ofInt ((o + name.length + 1 : Nat) : Int)) := by
    rw [← CInt.ofInt_self offset, ho]; exact fdtSkipName_of_holds hts hn hb hI
  unfold fdtNextTagSwitch
  rw [if_pos rfl, hsk]
  rfl

/-- An `FDT_PROP` record at `o`: its length word at `o + 4` gives the end, with 4 more bytes
under the pre-version-16 value rule. -/
theorem fdtNextTagSwitch_prop {offset : CInt} {o : Nat} {value rest : List UInt8}
    (ho : offset.val = ((o + 4 : Nat) : Int))
    (hb : HoldsBytes fdt (o + 4) (be32 (UInt32.ofNat value.length) ++ rest))
    (hI : InStruct fdt (o + 12 + valuePad (legacy fdt) o value + value.length)) :
    fdtNextTagSwitch 0 fdt FDT_PROP offset =
      .ok (.next (CInt.ofInt ((o + 12 + valuePad (legacy fdt) o value + value.length : Nat) : Int))) := by
  have he := hI.lt_two_pow hts
  have hpad : valuePad (legacy fdt) o value ≤ 4 := by unfold valuePad; split_ifs <;> omega
  have hlp : fdtOffsetPtr 0 fdt offset 4 = some ((fdtOffDtStruct fdt).toNat + (o + 4)) := by
    rw [← CInt.ofInt_self offset, ho]; exact fdtOffsetPtr_of_le hts (n := 4) hI (by omega)
  have hlen : (UInt32.ofNat value.length).toNat = value.length :=
    UInt32.toNat_ofNat_of_lt (by unfold UInt32.size; omega)
  have hoff : CInt.ofInt (offset.val + (sizeofFdtProperty - FDT_TAGSIZE : Int) +
      ((UInt32.ofNat value.length).toNat : Int)) = CInt.ofInt ((o + 12 + value.length : Nat) : Int) := by
    rw [ho, hlen]; congr 1
  have hcond : ((!canAssume_ 0 ASSUME_LATEST) = true ∧ fdtVersion fdt < 0x10 ∧
      UInt32.ofNat value.length ≥ 8 ∧
      ((CInt.ofInt ((o + 12 + value.length : Nat) : Int)).toU32 - UInt32.ofNat value.length) % 8 ≠ 0) ↔
      (legacy fdt = true ∧ 8 ≤ value.length ∧ (o + 12) % 8 ≠ 0) := by
    rw [CInt.toU32_natCast (by omega), u32_sub_mod_eight_ne_zero (by omega), ge_iff_le, u32_le_iff,
      hlen, u32_lt_iff, canAssume__zero]
    simp only [legacy, Bool.not_false, decide_eq_true_eq, true_and]
    rfl
  unfold fdtNextTagSwitch
  rw [if_neg (by decide), if_pos rfl, hlp]
  dsimp only
  rw [hb.word, hoff]
  unfold valuePad
  by_cases hc : legacy fdt = true ∧ 8 ≤ value.length ∧ (o + 12) % 8 ≠ 0
  · rw [if_pos (hcond.mpr hc), if_pos hc, CInt.ofInt_natCast_val (by omega)]
    congr 3
    omega
  · rw [if_neg (mt hcond.mp hc), if_neg hc]

/-- At the offset of any record of a block the blob holds, `fdt_next_tag` returns the record's
tag and the offset just past it. -/
theorem fdtNextTag_of_holds {o : Nat} {r : Record} {rs : List Record} (h : Holds fdt o (r :: rs)) :
    fdtNextTag 0 fdt (CInt.ofInt o) =
      .ok (r.tag, CInt.ofInt ((o + r.size (legacy fdt) o : Nat) : Int)) := by
  obtain ⟨hI, hB⟩ := h.head
  have ha := h.aligned
  have hsz := r.four_le_size (legacy fdt) o
  have hlt := hI.lt_two_pow hts
  have ho := CInt.ofInt_natCast_val (n := o) (by omega)
  have h4 := CInt.ofInt_natCast_val (n := o + 4) (by omega)
  have ht : fdt32Ld fdt.byte ((fdtOffDtStruct fdt).toNat + o) = r.tag := by
    obtain ⟨rest, hr⟩ := r.encode_eq_tag_append (legacy fdt) o
    rw [hr] at hB
    exact hB.word
  have hword : ∀ t, (t = FDT_END ∨ t = FDT_END_NODE ∨ t = FDT_NOP) → r.size (legacy fdt) o = 4 →
      r.tag = t → fdtNextTag 0 fdt (CInt.ofInt o) =
        .ok (r.tag, CInt.ofInt ((o + r.size (legacy fdt) o : Nat) : Int)) := by
    intro t htag hs4 hrt
    rw [hs4] at hI ⊢
    rw [fdtNextTag_of_switch hts ho hI (by omega) (ht.trans hrt) (fdtNextTagSwitch_word htag _), hrt,
      show align4 (o + 4) = o + 4 by unfold align4; omega]
  cases r with
  | beginNode name =>
    have hpos : 0 < align4 (name.bytes.length + 1) - name.bytes.length := by unfold align4; omega
    obtain ⟨j, hj⟩ : ∃ j, align4 (name.bytes.length + 1) - name.bytes.length = j + 1 :=
      ⟨_, (Nat.succ_pred_eq_of_pos hpos).symm⟩
    simp only [Record.encode, hj, List.replicate_succ, List.append_assoc] at hB
    have hb := hB.right
    rw [be32_length] at hb
    have hIe : InStruct fdt (o + 4 + name.bytes.length + 1) :=
      hI.mono (by simp only [Record.size, align4]; omega)
    have he : align4 (o + 4 + name.bytes.length + 1) = o + Record.size (legacy fdt) o (.beginNode name) := by
      simp only [Record.size, align4]; omega
    simp only [Record.tag] at ht ⊢
    have hn := fdtNextTag_of_switch hts ho hIe (by omega) ht
      (fdtNextTagSwitch_beginNode hts h4 name.nul_free hb hIe)
    rwa [he] at hn
  | prop nameoff value =>
    simp only [Record.encode, List.append_assoc] at hB
    have hb := hB.right
    rw [be32_length] at hb
    have hIe : InStruct fdt (o + 12 + valuePad (legacy fdt) o value + value.length) :=
      hI.mono (by simp only [Record.size, align4]; omega)
    have he : align4 (o + 12 + valuePad (legacy fdt) o value + value.length) =
        o + Record.size (legacy fdt) o (.prop nameoff value) := by
      simp only [Record.size, align4, valuePad]; split_ifs <;> omega
    simp only [Record.tag] at ht ⊢
    have hn := fdtNextTag_of_switch hts ho hIe (by omega) ht (fdtNextTagSwitch_prop hts h4 hb hIe)
    rwa [he] at hn
  | endNode => exact hword FDT_END_NODE (by decide) rfl rfl
  | nop => exact hword FDT_NOP (by decide) rfl rfl
  | end_ => exact hword FDT_END (by decide) rfl rfl

end

end DtbOverlay
