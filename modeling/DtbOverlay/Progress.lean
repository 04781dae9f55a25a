import DtbOverlay.RecordTag
import DtbOverlay.RoundTrip

/-! One call of `fdt_next_tag` on any blob that `fdt_check_header` accepts, whatever its
structure block holds. A tag other than `FDT_END` comes from a record that lies in the
structure block, with `*nextoffset` its end rounded up to a word, for every record whose end,
in unbounded arithmetic, stays below `2^31`. Only an `FDT_PROP` record can end past that: its
length word makes `offset += 8 + len` wrap the `int`, and the closing `fdt_offset_ptr` check
then sees a span that is not the record's. -/
namespace DtbOverlay

/-- The end of an `FDT_PROP` record at offset `s` of the structure block, in unbounded
arithmetic: its three words, the value length read at `s + 4` and, before version 16, 4 bytes
of padding before a value of 8 bytes or more that would not start 8-aligned. -/
def propEnd (fdt : Blob) (s : Nat) : Nat :=
  let len := (fdt32Ld fdt.byte ((fdtOffDtStruct fdt).toNat + (s + 4))).toNat
  s + 12 + len + if (fdtVersion fdt).toNat < 16 ∧ 8 ≤ len ∧ (s + 12) % 8 ≠ 0 then 4 else 0

theorem le_propEnd (fdt : Blob) (s : Nat) : s + 12 ≤ propEnd fdt s := by
  unfold propEnd
  dsimp only
  omega

section
variable {fdt : Blob}

/-- With no assumptions the `switch` of `fdt_next_tag` leaves early only with `FDT_END` and
`-FDT_ERR_BADSTRUCTURE`. -/
theorem fdtNextTagSwitch_ret_bad {tag : UInt32} {x : CInt} {r : UInt32 × CInt}
    (h : fdtNextTagSwitch 0 fdt tag x = .ok (.ret r)) :
    r = (FDT_END, CInt.ofInt (-FDT_ERR_BADSTRUCTURE)) := by
  simp only [fdtNextTagSwitch, canAssume__zero, Bool.not_false, Bool.false_eq_true, true_and,
    ↓reduceIte] at h
  split_ifs at h <;> (try split at h) <;> (try split_ifs at h) <;>
    simp only [Except.ok.injEq, Flow.ret.injEq, reduceCtorEq] at h <;> rw [← h]

theorem fdtNextTagSwitch_ret {tag : UInt32} {x : CInt} {r : UInt32 × CInt}
    (h : fdtNextTagSwitch 0 fdt tag x = .ok (.ret r)) : r.1 = FDT_END := by
  rw [fdtNextTagSwitch_ret_bad h]

/-- Everything the `switch` of `fdt_next_tag` can go on with, with no assumptions: past a name
whose NUL the name loop found, past an `FDT_PROP` record whose length word it read, or past
the tag word alone. -/
theorem fdtNextTagSwitch_next {tag : UInt32} {x off : CInt}
    (h : fdtNextTagSwitch 0 fdt tag x = .ok (.next off)) :
    (tag = FDT_BEGIN_NODE ∧ ∃ q, fdtSkipName 0 fdt x = (some q, off)) ∨
      (tag = FDT_PROP ∧ ∃ lenp, fdtOffsetPtr 0 fdt x 4 = some lenp ∧
        let len := fdt32Ld fdt.byte lenp
        let o := CInt.ofInt (x.val + (sizeofFdtProperty - FDT_TAGSIZE : Int) + len.toNat)
        off = if fdtVersion fdt < 0x10 ∧ len ≥ 8 ∧ (o.toU32 - len) % 8 ≠ 0 then
          CInt.ofInt (o.val + 4) else o) ∨
      ((tag = FDT_END ∨ tag = FDT_END_NODE ∨ tag = FDT_NOP) ∧ off = x) := by
  simp only [fdtNextTagSwitch, canAssume__zero, Bool.not_false, Bool.false_eq_true, true_and,
    ↓reduceIte] at h
  split_ifs at h with h1 hn h2 h3 <;>
    try simp only [Except.ok.injEq, Flow.next.injEq, reduceCtorEq] at h
  · rcases hs : fdtSkipName 0 fdt x with ⟨_ | q, o⟩ <;> simp only [hs, not_true_eq_false] at hn h
    exact .inl ⟨h1, q, by rw [h]⟩
  · rcases hl : fdtOffsetPtr 0 fdt x 4 with _ | lenp <;>
      simp only [hl, Except.ok.injEq, reduceCtorEq] at h
    refine .inr (.inl ⟨h2, lenp, rfl, ?_⟩)
    dsimp only
    split_ifs at h ⊢ <;> simp only [Except.ok.injEq, Flow.next.injEq] at h <;> exact h.symm
  · exact .inr (.inr ⟨h3, h.symm⟩)

/-- With no assumptions the `switch` of `fdt_next_tag` never dereferences `NULL`. -/
theorem fdtNextTagSwitch_zero_ok (fdt : Blob) (tag : UInt32) (offset : CInt) :
    ∃ f, fdtNextTagSwitch 0 fdt tag offset = .ok f := by
  simp only [fdtNextTagSwitch, canAssume__zero, Bool.false_eq_true, ↓reduceIte]
  repeat' split
  all_goals exact ⟨_, rfl⟩

/-- With no assumptions `fdt_next_tag` returns for every blob and offset: it dereferences no
`NULL`, and its name loop ends. -/
theorem fdtNextTag_zero_ok (fdt : Blob) (offset : CInt) : ∃ r, fdtNextTag 0 fdt offset = .ok r := by
  unfold fdtNextTag
  split
  · exact ⟨_, rfl⟩
  · obtain ⟨f, hf⟩ := fdtNextTagSwitch_zero_ok fdt (fdt32Ld fdt.byte ‹_›)
      (CInt.ofInt (offset.val + FDT_TAGSIZE))
    rcases f with o | r <;> simp only [hf]
    · split <;> exact ⟨_, rfl⟩
    · exact ⟨_, rfl⟩

/-- Everything a call of `fdt_next_tag` that returns a tag other than `FDT_END` has done, with no
assumptions: read the tag word at `startoffset`, gone on past the record in the `switch`, and
had `fdt_offset_ptr` accept the span from `startoffset` to the record's end. -/
theorem fdtNextTag_ne_end {so next : CInt} {tag : UInt32}
    (h : fdtNextTag 0 fdt so = .ok (tag, next)) (ht : tag ≠ FDT_END) :
    ∃ off, fdtOffsetPtr 0 fdt so (UInt32.ofNat FDT_TAGSIZE) ≠ none ∧
      tag = fdt32Ld fdt.byte ((fdtOffDtStruct fdt).toNat + so.val.toNat) ∧
      fdtNextTagSwitch 0 fdt tag (CInt.ofInt (so.val + FDT_TAGSIZE)) = .ok (.next off) ∧
      fdtOffsetPtr 0 fdt so (CInt.ofInt (off.val - so.val)).toU32 ≠ none ∧
      next = fdtTagalign off := by
  unfold fdtNextTag at h
  rcases hp : fdtOffsetPtr 0 fdt so (UInt32.ofNat FDT_TAGSIZE) with _ | tagp <;>
    simp only [hp, canAssume__zero, Bool.false_eq_true, ↓reduceIte, Except.ok.injEq,
      Prod.mk.injEq] at h
  · exact absurd h.1.symm ht
  obtain ⟨-, -, rfl⟩ := fdtOffsetPtr_eq_some hp
  rcases hs : fdtNextTagSwitch 0 fdt (fdt32Ld fdt.byte ((fdtOffDtStruct fdt).toNat + so.val.toNat))
    (CInt.ofInt (so.val + FDT_TAGSIZE)) with e | ⟨off⟩ | ⟨r⟩ <;> simp only [hs] at h
  · cases h
  · split_ifs at h with hc
    · simp only [Except.ok.injEq, Prod.mk.injEq] at h
      exact absurd h.1.symm ht
    · simp only [Except.ok.injEq, Prod.mk.injEq] at h
      obtain ⟨rfl, rfl⟩ := h
      exact ⟨off, by simp, rfl, hs, hc, rfl⟩
  · simp only [Except.ok.injEq] at h
    have hr := fdtNextTagSwitch_ret hs
    rw [h] at hr
    exact absurd hr ht

/-- `FDT_TAGALIGN` rounds to a word boundary, whatever the `int` it rounds. -/
theorem fdtTagalign_mod_four (x : CInt) : (fdtTagalign x).val % 4 = 0 := by
  simp only [fdtTagalign, CInt.ofInt, Int.bmod]
  split <;> omega

/-- With no assumptions, `*nextoffset` after a tag other than `FDT_END` is at a word boundary. -/
theorem fdtNextTag_next_mod_four {so next : CInt} {tag : UInt32}
    (h : fdtNextTag 0 fdt so = .ok (tag, next)) (ht : tag ≠ FDT_END) : next.val % 4 = 0 := by
  obtain ⟨off, -, -, -, -, rfl⟩ := fdtNextTag_ne_end h ht
  exact fdtTagalign_mod_four off

/-- With no assumptions the tags `fdt_next_tag` returns are the five record tags. -/
theorem fdtNextTag_tag_cases {so next : CInt} {tag : UInt32}
    (h : fdtNextTag 0 fdt so = .ok (tag, next)) (ht : tag ≠ FDT_END) :
    tag = FDT_BEGIN_NODE ∨ tag = FDT_PROP ∨ tag = FDT_END_NODE ∨ tag = FDT_NOP := by
  obtain ⟨off, -, -, hsw, -, -⟩ := fdtNextTag_ne_end h ht
  rcases fdtNextTagSwitch_next hsw with ⟨hb, -⟩ | ⟨hp, -⟩ | ⟨hw | hw, -⟩
  · exact .inl hb
  · exact .inr (.inl hp)
  · exact absurd hw ht
  · exact .inr (.inr hw)

/-- The closing check of `fdt_next_tag`: once `fdt_offset_ptr` accepts the span from `so` to an
end `e` at or past `so`, everything up to `e` lies in the structure block. -/
theorem inStruct_of_closing_check {so off : CInt} {e : Nat} (h0 : 0 ≤ so.val)
    (he : off.val = e) (hle : so.val ≤ e)
    (h : fdtOffsetPtr 0 fdt so (CInt.ofInt (off.val - so.val)).toU32 ≠ none) : InStruct fdt e := by
  obtain ⟨q, hq⟩ := Option.ne_none_iff_exists'.mp h
  obtain ⟨-, hI, -⟩ := fdtOffsetPtr_eq_some hq
  have := off.lt
  have hv : (CInt.ofInt (off.val - so.val)).val = off.val - so.val :=
    CInt.ofInt_val (by omega) (by omega)
  rw [CInt.toU32_toNat, hv] at hI
  exact hI.mono (by omega)

theorem fdtTagalign_val {off : CInt} {e : Nat} (he : off.val = e) (hlt : e + 3 < 2 ^ 31) :
    (fdtTagalign off).val = align4 e := by
  unfold fdtTagalign align4
  rw [he, CInt.ofInt_val (by omega) (by omega)]
  omega

/-- The `FDT_PROP` arm of the `switch`, from the tag word at `s`: the offset it goes on with is
the record's end `propEnd` when that end is below `2^31`. -/
theorem propNext_val {s : Nat} {off : CInt} (hE : propEnd fdt s < 2 ^ 31)
    (hoff :
      let len := fdt32Ld fdt.byte
        ((fdtOffDtStruct fdt).toNat + (CInt.ofInt ((s + 4 : Nat) : Int)).val.toNat)
      let o := CInt.ofInt ((CInt.ofInt ((s + 4 : Nat) : Int)).val +
        (sizeofFdtProperty - FDT_TAGSIZE : Int) + len.toNat)
      off = if fdtVersion fdt < 0x10 ∧ len ≥ 8 ∧ (o.toU32 - len) % 8 ≠ 0 then
        CInt.ofInt (o.val + 4) else o) :
    off.val = propEnd fdt s := by
  unfold propEnd at hE ⊢
  generalize hlen : fdt32Ld fdt.byte ((fdtOffDtStruct fdt).toNat + (s + 4)) = len at hE ⊢
  have hL : len.toNat < 2 ^ 32 := len.toNat_lt_size
  dsimp only at hE hoff ⊢
  rw [CInt.ofInt_natCast_val (by omega), Int.toNat_natCast, hlen,
    show ((s + 4 : Nat) : Int) + (sizeofFdtProperty - FDT_TAGSIZE : Int) + len.toNat =
      ((s + 12 + len.toNat : Nat) : Int) by unfold sizeofFdtProperty FDT_TAGSIZE; push_cast; ring,
    CInt.toU32_natCast (by omega)] at hoff
  have hsub := u32_sub_mod_eight_ne_zero (a := s + 12) (b := len.toNat) (by omega)
  rw [show UInt32.ofNat len.toNat = len from UInt32.toNat.inj (UInt32.toNat_ofNat_of_lt hL)] at hsub
  have hcond : (fdtVersion fdt < 0x10 ∧ len ≥ 8 ∧ (UInt32.ofNat (s + 12 + len.toNat) - len) % 8 ≠ 0) ↔
      ((fdtVersion fdt).toNat < 16 ∧ 8 ≤ len.toNat ∧ (s + 12) % 8 ≠ 0) := by
    rw [hsub, ge_iff_le, u32_le_iff, u32_lt_iff]
    rfl
  rw [hoff, if_congr hcond rfl rfl]
  split_ifs at hE ⊢ <;> rw [CInt.ofInt_natCast_val (by omega)]
  · rw [CInt.ofInt_val (by omega) (by omega)]
    push_cast; ring
  · push_cast; ring

end

section
variable {fdt : Blob} (hacc : fdtCheckHeader 0 fdt = 0)
include hacc

theorem InStruct.add_three_lt {e : Nat} (h : InStruct fdt e) : e + 3 < 2 ^ 31 := by
  have := h.1
  have := fdtTotalsize_le_of_accepted hacc
  have := fdtOffDtStruct_ge_of_accepted hacc
  unfold INT_MAX at *
  omega

/-- The name loop of `fdt_next_tag` that finds a NUL has gone from `x` over `k` bytes that are
not NUL, all in the structure block, to the NUL, and returns the offset past it. -/
theorem fdtSkipName_eq_some {x off : CInt} {q : Nat} (hx : 0 ≤ x.val)
    (h : fdtSkipName 0 fdt x = (some q, off)) :
    ∃ k, (∀ i < k, fdt.byte ((fdtOffDtStruct fdt).toNat + x.val.toNat + i) ≠ 0) ∧
      fdt.byte ((fdtOffDtStruct fdt).toNat + x.val.toNat + k) = 0 ∧
      InStruct fdt (x.val.toNat + k + 1) ∧ off.val = x.val.toNat + k + 1 := by
  induction x using fdtSkipName.induct 0 fdt with
  | case1 x q' hp hq ih =>
    obtain ⟨-, hI, rfl⟩ := fdtOffsetPtr_eq_some hp
    have hlt := hI.add_three_lt hacc
    rw [show (1 : UInt32).toNat = 1 from rfl] at hlt
    have h1 : (CInt.ofInt (x.val + 1)).val = x.val + 1 := CInt.ofInt_val (by omega) (by omega)
    rw [fdtSkipName_of_ne 0 fdt hp hq] at h
    obtain ⟨k, hne, hz, hIk, hoff⟩ := ih (by omega) h
    rw [h1, show (x.val + 1).toNat = x.val.toNat + 1 by omega] at hne hz hIk hoff
    refine ⟨k + 1, fun i hi => ?_,
      by rwa [show (fdtOffDtStruct fdt).toNat + x.val.toNat + (k + 1) =
        (fdtOffDtStruct fdt).toNat + (x.val.toNat + 1) + k by omega],
      by rwa [show x.val.toNat + (k + 1) + 1 = x.val.toNat + 1 + k + 1 by omega],
      by rw [hoff]; push_cast; ring⟩
    rcases i with _ | i
    · exact hq
    · rw [show (fdtOffDtStruct fdt).toNat + x.val.toNat + (i + 1) =
        (fdtOffDtStruct fdt).toNat + (x.val.toNat + 1) + i by omega]
      exact hne i (by omega)
  | case2 x q' hp hq =>
    rw [fdtSkipName_of_nul 0 fdt hp (not_not.mp hq)] at h
    obtain ⟨-, hI, rfl⟩ := fdtOffsetPtr_eq_some hp
    simp only [Prod.mk.injEq, Option.some.injEq] at h
    obtain ⟨-, rfl⟩ := h
    have hlt := hI.add_three_lt hacc
    rw [show (1 : UInt32).toNat = 1 from rfl] at hI hlt
    exact ⟨0, fun i hi => absurd hi (Nat.not_lt_zero i), not_not.mp hq, hI,
      by rw [CInt.ofInt_val (by omega) (by omega)]; omega⟩
  | case3 x hp =>
    rw [fdtSkipName_of_none 0 fdt hp] at h
    cases h

/-- What every tag but `FDT_END` shares: `startoffset` is not negative, the tag is the word
there, and any record end `e` past the tag word that the `switch` goes on to lies in the
structure block, with `*nextoffset` at `e` rounded up to a word. -/
theorem fdtNextTag_ne_end_span {so next : CInt} {tag : UInt32}
    (h : fdtNextTag 0 fdt so = .ok (tag, next)) (ht : tag ≠ FDT_END) :
    ∃ off, 0 ≤ so.val ∧ InStruct fdt (so.val.toNat + 4) ∧
      tag = fdt32Ld fdt.byte ((fdtOffDtStruct fdt).toNat + so.val.toNat) ∧
      fdtNextTagSwitch 0 fdt tag (CInt.ofInt ((so.val.toNat + 4 : Nat) : Int)) = .ok (.next off) ∧
      ∀ e : Nat, off.val = e → so.val.toNat + 4 ≤ e → InStruct fdt e ∧ next.val = align4 e := by
  obtain ⟨off, hp, htag, hsw, hfin, rfl⟩ := fdtNextTag_ne_end h ht
  obtain ⟨q, hq⟩ := Option.ne_none_iff_exists'.mp hp
  obtain ⟨h0, hI4, -⟩ := fdtOffsetPtr_eq_some hq
  rw [show (UInt32.ofNat FDT_TAGSIZE).toNat = 4 from rfl] at hI4
  rw [show so.val + (FDT_TAGSIZE : Int) = ((so.val.toNat + 4 : Nat) : Int) by
    unfold FDT_TAGSIZE; omega] at hsw
  refine ⟨off, h0, hI4, htag, hsw, fun e he hle => ?_⟩
  have hI := inStruct_of_closing_check h0 he (by omega) hfin
  exact ⟨hI, fdtTagalign_val he (hI.add_three_lt hacc)⟩

theorem fdtNextTag_word_record {so next : CInt} {tag : UInt32}
    (h : fdtNextTag 0 fdt so = .ok (tag, next)) (ht : tag = FDT_NOP ∨ tag = FDT_END_NODE) :
    InStruct fdt (so.val.toNat + 4) ∧ next.val = align4 (so.val.toNat + 4) := by
  obtain ⟨off, -, hI4, -, hsw, hend⟩ :=
    fdtNextTag_ne_end_span hacc h (by rcases ht with rfl | rfl <;> decide)
  rw [fdtNextTagSwitch_word (by tauto)] at hsw
  simp only [Except.ok.injEq, Flow.next.injEq] at hsw
  exact hend _ (hsw ▸ CInt.ofInt_natCast_val (by have := hI4.add_three_lt hacc; omega)) le_rfl

theorem fdtNextTag_beginNode_record {so next : CInt}
    (h : fdtNextTag 0 fdt so = .ok (FDT_BEGIN_NODE, next)) :
    ∃ k, (∀ i < k, fdt.byte ((fdtOffDtStruct fdt).toNat + so.val.toNat + 4 + i) ≠ 0) ∧
      fdt.byte ((fdtOffDtStruct fdt).toNat + so.val.toNat + 4 + k) = 0 ∧
      InStruct fdt (so.val.toNat + 4 + k + 1) ∧ next.val = align4 (so.val.toNat + 4 + k + 1) := by
  obtain ⟨off, -, hI4, -, hsw, hend⟩ := fdtNextTag_ne_end_span hacc h (by decide)
  have h4 := CInt.ofInt_natCast_val (n := so.val.toNat + 4) (by have := hI4.add_three_lt hacc; omega)
  rcases fdtNextTagSwitch_next hsw with ⟨-, q, hq⟩ | ⟨hp, -⟩ | ⟨hw, -⟩
  · obtain ⟨k, hne, hz, hIk, hoff⟩ := fdtSkipName_eq_some hacc (by omega) hq
    rw [h4, Int.toNat_natCast, ← Nat.add_assoc] at hne hz
    rw [h4, Int.toNat_natCast] at hIk hoff
    exact ⟨k, hne, hz, hIk,
      (hend _ (by rw [hoff]; push_cast; ring) (by omega)).2⟩
  · exact absurd hp (by decide)
  · exact absurd hw (by decide)

theorem fdtNextTag_prop_record {so next : CInt}
    (h : fdtNextTag 0 fdt so = .ok (FDT_PROP, next)) (hE : propEnd fdt so.val.toNat < 2 ^ 31) :
    InStruct fdt (propEnd fdt so.val.toNat) ∧ next.val = align4 (propEnd fdt so.val.toNat) := by
  obtain ⟨off, -, -, -, hsw, hend⟩ := fdtNextTag_ne_end_span hacc h (by decide)
  rcases fdtNextTagSwitch_next hsw with ⟨hb, -⟩ | ⟨-, lenp, hl, hoff⟩ | ⟨hw, -⟩
  · exact absurd hb (by decide)
  · rw [(fdtOffsetPtr_eq_some hl).2.2] at hoff
    exact hend _ (propNext_val hE hoff) (by have := le_propEnd fdt so.val.toNat; omega)
  · exact absurd hw (by decide)

/-- A call of `fdt_next_tag` that returns a tag other than `FDT_END`, unless an `FDT_PROP` that
ends past `2^31`, moves at least a word forward, to a word boundary below `totalsize`. -/
theorem fdtNextTag_advances {so next : CInt} {tag : UInt32}
    (h : fdtNextTag 0 fdt so = .ok (tag, next)) (ht : tag ≠ FDT_END)
    (hp : tag = FDT_PROP → propEnd fdt so.val.toNat < 2 ^ 31) :
    so.val + 4 ≤ next.val ∧ next.val < (fdtTotalsize fdt).toNat ∧ next.val % 4 = 0 := by
  obtain ⟨-, h0, -⟩ := fdtNextTag_ne_end_span hacc h ht
  have hb := fdtOffDtStruct_ge_of_accepted hacc
  have key : ∀ e : Nat, so.val.toNat + 4 ≤ e → InStruct fdt e → next.val = align4 e →
      so.val + 4 ≤ next.val ∧ next.val < (fdtTotalsize fdt).toNat ∧ next.val % 4 = 0 := by
    intro e hle hI hn
    have := hI.1
    rw [hn]
    unfold align4
    omega
  rcases fdtNextTag_tag_cases h ht with rfl | rfl | hw
  · obtain ⟨k, -, -, hI, hn⟩ := fdtNextTag_beginNode_record hacc h
    exact key _ (by omega) hI hn
  · obtain ⟨hI, hn⟩ := fdtNextTag_prop_record hacc h (hp rfl)
    exact key _ (by have := le_propEnd fdt so.val.toNat; omega) hI hn
  · obtain ⟨hI, hn⟩ := fdtNextTag_word_record hacc h hw.symm
    exact key _ le_rfl hI hn

end

/-- A tag other than `FDT_END` that `fdt_next_tag` returned at `so` with `*nextoffset = next`
comes from a record of the structure block: read at a non-negative offset, one of the four
record tags, lying in the block, with `next` its end rounded up to a word. The end is 4 bytes
on for `FDT_NOP` and `FDT_END_NODE`, past the name's first NUL for `FDT_BEGIN_NODE`, and
`propEnd` for `FDT_PROP` whenever that is below `2^31`. -/
structure RecordInStruct (fdt : Blob) (so next : CInt) (tag : UInt32) : Prop where
  start_nonneg : 0 ≤ so.val
  tag_eq : tag = fdt32Ld fdt.byte ((fdtOffDtStruct fdt).toNat + so.val.toNat)
  tag_cases : tag = FDT_BEGIN_NODE ∨ tag = FDT_PROP ∨ tag = FDT_END_NODE ∨ tag = FDT_NOP
  word : (tag = FDT_NOP ∨ tag = FDT_END_NODE) →
    InStruct fdt (so.val.toNat + 4) ∧ next.val = align4 (so.val.toNat + 4)
  beginNode : tag = FDT_BEGIN_NODE → ∃ k,
    (∀ i < k, fdt.byte ((fdtOffDtStruct fdt).toNat + so.val.toNat + 4 + i) ≠ 0) ∧
    fdt.byte ((fdtOffDtStruct fdt).toNat + so.val.toNat + 4 + k) = 0 ∧
    InStruct fdt (so.val.toNat + 4 + k + 1) ∧ next.val = align4 (so.val.toNat + 4 + k + 1)
  prop : tag = FDT_PROP → propEnd fdt so.val.toNat < 2 ^ 31 →
    InStruct fdt (propEnd fdt so.val.toNat) ∧ next.val = align4 (propEnd fdt so.val.toNat)

/-- With no assumptions, on a blob that `fdt_check_header` accepts, every tag other than
`FDT_END` that `fdt_next_tag` returns comes from a record that lies in the structure block, with
`*nextoffset` its end rounded up to a word, unless it is an `FDT_PROP` whose end, in unbounded
arithmetic, reaches `2^31`. -/
theorem fdtNextTag_record_of_ne_end (fdt : Blob) (hacc : fdtCheckHeader 0 fdt = 0)
    {so next : CInt} {tag : UInt32} (h : fdtNextTag 0 fdt so = .ok (tag, next))
    (ht : tag ≠ FDT_END) : RecordInStruct fdt so next tag := by
  obtain ⟨-, h0, -, htag, -⟩ := fdtNextTag_ne_end_span hacc h ht
  refine ⟨h0, htag, fdtNextTag_tag_cases h ht, fdtNextTag_word_record hacc h, ?_, ?_⟩
  · rintro rfl; exact fdtNextTag_beginNode_record hacc h
  · rintro rfl; exact fdtNextTag_prop_record hacc h

/-- On `sampleBlob` at offset 12, its `FDT_PROP` record with an 8-byte value, every clause of
the theorem is live: the record ends at 32, below `2^31`, and `*nextoffset` is 32. On `wrapBlob`
at offset 8, whose length word wraps, the `FDT_PROP` clause is empty, as the record's end lies
past `2^31`. -/
theorem fdtNextTag_record_of_ne_end_samples :
    (fdtCheckHeader 0 sampleBlob = 0 ∧
      fdtNextTag 0 sampleBlob (CInt.ofInt 12) = .ok (FDT_PROP, CInt.ofInt 32) ∧
      FDT_PROP ≠ FDT_END ∧
      RecordInStruct sampleBlob (CInt.ofInt 12) (CInt.ofInt 32) FDT_PROP ∧
      propEnd sampleBlob (CInt.ofInt 12).val.toNat = 32) ∧
    (fdtCheckHeader 0 wrapBlob = 0 ∧
      fdtNextTag 0 wrapBlob (CInt.ofInt 8) = .ok (FDT_PROP, CInt.ofInt 8) ∧
      FDT_PROP ≠ FDT_END ∧
      RecordInStruct wrapBlob (CInt.ofInt 8) (CInt.ofInt 8) FDT_PROP ∧
      2 ^ 31 ≤ propEnd wrapBlob (CInt.ofInt 8).val.toNat) :=
  have hs : fdtNextTag 0 sampleBlob (CInt.ofInt 12) = .ok (FDT_PROP, CInt.ofInt 32) := by decide
  ⟨⟨sampleBlob_accepted, hs, by decide,
      fdtNextTag_record_of_ne_end sampleBlob sampleBlob_accepted hs (by decide), by decide⟩,
    ⟨wrapBlob_accepted, wrapBlob_prop_loops, by decide,
      fdtNextTag_record_of_ne_end wrapBlob wrapBlob_accepted wrapBlob_prop_loops (by decide),
      by decide⟩⟩

end DtbOverlay
