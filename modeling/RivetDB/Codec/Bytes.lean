import Mathlib.Data.List.Lex
import Mathlib.Data.UInt
import Mathlib.Tactic.Common
import Mathlib.Tactic.Ring

/-!
# Fixed-width integers in byte strings

The binary formats of the repository are built from fixed-width unsigned
integers, in little-endian order (`encoding/binary.LittleEndian`) or big-endian
order (`encoding/binary.BigEndian`).  `putLE k n` writes the low `k` bytes of
`n`, `getLE` reads a whole string back, and the big-endian pair is the same
string reversed.

`slice` is Go's `b[i:j]`.  A format is written as an append of its fields, so a
field is read back by the three `slice_append` equations.
-/

namespace RivetDB

open List

/-- A Go byte slice. -/
abbrev Bytes := List UInt8

namespace Codec

/-- The `k` low bytes of `n`, least significant first. -/
def putLE : ℕ → ℕ → Bytes
  | 0, _ => []
  | k + 1, n => UInt8.ofNat (n % 256) :: putLE k (n / 256)

/-- The number a little-endian string denotes. -/
def getLE : Bytes → ℕ
  | [] => 0
  | b :: bs => b.toNat + 256 * getLE bs

/-- The `k` low bytes of `n`, most significant first. -/
def putBE (k n : ℕ) : Bytes := (putLE k n).reverse

/-- The number a big-endian string denotes. -/
def getBE (bs : Bytes) : ℕ := getLE bs.reverse

@[simp] theorem length_putLE (k n : ℕ) : (putLE k n).length = k := by
  induction k generalizing n with
  | zero => rfl
  | succ k ih => simp [putLE, ih]

@[simp] theorem length_putBE (k n : ℕ) : (putBE k n).length = k := by
  simp [putBE]

theorem getLE_putLE (k n : ℕ) : getLE (putLE k n) = n % 256 ^ k := by
  induction k generalizing n with
  | zero => simp [putLE, getLE, Nat.mod_one]
  | succ k ih =>
    have hbyte : (UInt8.ofNat (n % 256)).toNat = n % 256 := by
      simp [UInt8.toNat_ofNat']
    rw [putLE, getLE, ih, hbyte, pow_succ, mul_comm (256 ^ k) 256, Nat.mod_mul]

/-- Reading back what was written, for a number that fits. -/
theorem getLE_putLE_of_lt {k n : ℕ} (h : n < 256 ^ k) : getLE (putLE k n) = n := by
  rw [getLE_putLE, Nat.mod_eq_of_lt h]

theorem getBE_putBE_of_lt {k n : ℕ} (h : n < 256 ^ k) : getBE (putBE k n) = n := by
  simp [getBE, putBE, getLE_putLE_of_lt h]

theorem getLE_lt (b : Bytes) : getLE b < 256 ^ b.length := by
  induction b with
  | nil => simp [getLE]
  | cons x b ih =>
    have hx := x.toNat_lt
    rw [getLE, length_cons, pow_succ]
    omega

/-! ### Slices -/

/-- The Go slice expression `b[i:j]`, for bounds inside `b`. -/
def slice (b : Bytes) (i j : ℕ) : Bytes := (b.drop i).take (j - i)

/-- The byte `b[i]`, for an index inside `b`. -/
def byteAt (b : Bytes) (i : ℕ) : UInt8 := (slice b i (i + 1)).headD 0

variable {a b : Bytes} {j : ℕ}

/-- The field at the front. -/
theorem slice_append_front (h : a.length = j) : slice (a ++ b) 0 j = a := by
  subst h
  simp [slice]

/-- A slice inside the first field. -/
theorem slice_append_within {i j : ℕ} (h : j ≤ a.length) : slice (a ++ b) i j = slice a i j := by
  unfold slice
  rcases Nat.lt_or_ge a.length i with hlt | hge
  · rw [show j - i = 0 by omega, take_zero, take_zero]
  · rw [drop_append_of_le_length hge, take_append_of_le_length]
    rw [length_drop]
    omega

/-- A slice behind the first field. -/
theorem slice_append_behind {i j : ℕ} (h : a.length ≤ i) :
    slice (a ++ b) i j = slice b (i - a.length) (j - a.length) := by
  unfold slice
  rw [drop_append, drop_of_length_le h, nil_append]
  congr 1
  omega

@[simp] theorem slice_all (h : a.length = j) : slice a 0 j = a := by
  subst h
  simp [slice]

end Codec

/-! ### The order of keys -/

namespace ByteOrder

/-- The order of bytes; with it `bytes.Compare` is the order of lists. -/
scoped instance instLinearOrder : LinearOrder UInt8 where
  le_refl := UInt8.le_refl
  le_trans _ _ _ := UInt8.le_trans
  lt_iff_le_not_ge a b := by
    simp only [UInt8.lt_iff_toNat_lt, UInt8.le_iff_toNat_le]
    omega
  le_antisymm _ _ := UInt8.le_antisymm
  le_total := UInt8.le_total
  toDecidableLE := inferInstance

end ByteOrder

/-! ### Digests -/

/-- The array `[32]byte` of a SHA-256 sum. -/
structure Digest where
  bytes : Bytes
  size : bytes.length = 32
deriving DecidableEq, Repr

namespace Digest

/-- `copy(digest[:], source)` into a zero array. -/
def copy (source : Bytes) : Digest := ⟨(source ++ List.replicate 32 0).take 32, by simp⟩

/-- The zero array. -/
def zero : Digest := ⟨List.replicate 32 0, by simp⟩

theorem copy_bytes (d : Digest) : copy d.bytes = d := by
  obtain ⟨bytes, size⟩ := d
  simp [copy, take_append_of_le_length size.ge, take_of_length_le size.le]

end Digest

end RivetDB
