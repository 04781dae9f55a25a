import Mathlib

/-! C integer types, the blob, and the constants of libfdt (part_000) that the decoder reads.
A C `int` is a 32-bit two's-complement value whose arithmetic wraps, as the kernel is built
with `-fno-strict-overflow`; `u32` and `unsigned int` are `UInt32`. -/
namespace DtbOverlay

/-- A C `int`. -/
@[ext] structure CInt where
  val : Int
  ge : -2 ^ 31 ≤ val
  lt : val < 2 ^ 31
  deriving DecidableEq

namespace CInt

/-- Conversion of a mathematical integer to `int`: reduction modulo `2 ^ 32`. -/
def ofInt (x : Int) : CInt :=
  ⟨x.bmod (2 ^ 32), by have := @Int.le_bmod x (2 ^ 32) (by decide); omega,
    by have := @Int.bmod_lt x (2 ^ 32) (by decide); omega⟩

theorem ofInt_val {x : Int} (h1 : -2 ^ 31 ≤ x) (h2 : x < 2 ^ 31) : (ofInt x).val = x := by
  simp only [ofInt, Int.bmod]
  split <;> omega

@[simp] theorem ofInt_self (x : CInt) : ofInt x.val = x := by
  cases x with
  | mk v h1 h2 => exact CInt.ext (ofInt_val h1 h2)

theorem ofInt_val_emod (x : Int) : (ofInt x).val % 2 ^ 32 = x % 2 ^ 32 := by
  have := @Int.bmod_emod x (2 ^ 32)
  push_cast at this
  exact this

/-- `(unsigned int) x`. -/
def toU32 (x : CInt) : UInt32 := UInt32.ofNat (x.val % 2 ^ 32).toNat

@[simp] theorem toU32_toNat (x : CInt) : x.toU32.toNat = (x.val % 2 ^ 32).toNat := by
  show (BitVec.ofNat 32 _).toNat = _
  simp only [BitVec.toNat_ofNat]
  omega

end CInt

/-- A blob handed to the decoder: the address of its first byte and its bytes. -/
structure Blob where
  addr : UInt64
  byte : Nat → UInt8

/-- How a modelled call can end without a value: a `NULL` dereference that an assumption let
through, or a loop still running when its pass budget ran out. -/
inductive Fault where
  | nullDeref
  | outOfFuel
  deriving DecidableEq, Repr

instance decEqExcept {ε α : Type} [DecidableEq ε] [DecidableEq α] : DecidableEq (Except ε α)
  | .error a, .error b =>
    if h : a = b then isTrue (h ▸ rfl) else isFalse (by intro h'; cases h'; exact h rfl)
  | .ok a, .ok b =>
    if h : a = b then isTrue (h ▸ rfl) else isFalse (by intro h'; cases h'; exact h rfl)
  | .error _, .ok _ => isFalse (by intro h'; cases h')
  | .ok _, .error _ => isFalse (by intro h'; cases h')

/-- What a block of C code did: fell through with state `s`, or returned `a`. -/
inductive Flow (σ α : Type) where
  | next (s : σ)
  | ret (a : α)
  deriving DecidableEq, Repr

theorem u32_lt_iff {a b : UInt32} : a < b ↔ a.toNat < b.toNat := Iff.rfl

theorem u32_le_iff {a b : UInt32} : a ≤ b ↔ a.toNat ≤ b.toNat := Iff.rfl

theorem u32_add_toNat (a b : UInt32) : (a + b).toNat = (a.toNat + b.toNat) % 2 ^ 32 :=
  BitVec.toNat_add _ _

/-! ### Error codes -/

def FDT_ERR_NOTFOUND : Int := 1
def FDT_ERR_NOSPACE : Int := 3
def FDT_ERR_BADOFFSET : Int := 4
def FDT_ERR_TRUNCATED : Int := 8
def FDT_ERR_BADMAGIC : Int := 9
def FDT_ERR_BADVERSION : Int := 10
def FDT_ERR_BADSTRUCTURE : Int := 11
def FDT_ERR_ALIGNMENT : Int := 19

/-! ### Assumptions -/

def ASSUME_VALID_DTB : Nat := 1 <<< 0
def ASSUME_VALID_INPUT : Nat := 1 <<< 1
def ASSUME_LATEST : Nat := 1 <<< 2
def ASSUME_PERFECT : Nat := 0xff

/-- `can_assume_(mask)`: whether the build's `FDT_ASSUME_MASK` enables `mask`. -/
def canAssume_ (FDT_ASSUME_MASK mask : Nat) : Bool := FDT_ASSUME_MASK &&& mask != 0

theorem canAssume__two_pow (m k : Nat) : canAssume_ m (2 ^ k) = m.testBit k := by
  simp only [canAssume_, Nat.and_two_pow, bne_iff_ne, ne_eq]
  cases m.testBit k <;> simp

@[simp] theorem canAssume__zero (mask : Nat) : canAssume_ 0 mask = false := by
  simp [canAssume_]

def FDT_FIRST_SUPPORTED_VERSION : UInt32 := 0x02
def FDT_LAST_SUPPORTED_VERSION : UInt32 := 0x11
def INT_MAX : Nat := 2 ^ 31 - 1

/-! ### `fdt.h`

The header `fdt.h` is not part of the repository; its constants are those of the format
the spec describes. -/

/-- Modelled from the spec: the magic word, bytes `D0 0D FE ED`. -/
def FDT_MAGIC : UInt32 := 0xd00dfeed

/-- Modelled from the spec: the five tag words. -/
def FDT_BEGIN_NODE : UInt32 := 0x1
def FDT_END_NODE : UInt32 := 0x2
def FDT_PROP : UInt32 := 0x3
def FDT_NOP : UInt32 := 0x4
def FDT_END : UInt32 := 0x9

/-- Modelled from the spec: tags are 4-byte words. -/
def FDT_TAGSIZE : Nat := 4

/-- Modelled from the spec: header lengths of the layout of section 6, seven words up to
version 1, adding `boot_cpuid_phys` at 2, `size_dt_strings` at 3 and `size_dt_struct` at 17. -/
def FDT_V1_SIZE : Nat := 7 * 4
def FDT_V2_SIZE : Nat := FDT_V1_SIZE + 4
def FDT_V3_SIZE : Nat := FDT_V2_SIZE + 4
def FDT_V16_SIZE : Nat := FDT_V3_SIZE
def FDT_V17_SIZE : Nat := FDT_V16_SIZE + 4

/-- Modelled from the spec: `struct fdt_property` is the tag, the value length and the
name offset, three words. -/
def sizeofFdtProperty : Nat := 12

/-- Modelled from the spec: `FDT_TAGALIGN(x)` rounds up to the next multiple of
`FDT_TAGSIZE`; the sum is computed in `size_t` and stored into an `int`. -/
def fdtTagalign (x : CInt) : CInt := CInt.ofInt ((x.val + 3) / 4 * 4)

end DtbOverlay
