import Mathlib.Data.List.Basic
import Mathlib.Algebra.Order.Group.Nat
/-
# `ShadowAead.Basic` — bytes, the nonce counter, and C arithmetic that can go wrong

`aead.c` works on `uint8_t` buffers addressed by `size_t` lengths.  A buffer is a
`List UInt8`; the code's lengths are the lists' lengths.

Two things in C have no counterpart in a list and are made explicit here.

* A `size_t` difference `a - b` with `b > a` wraps to a huge value, and a `memcpy` or a
  primitive call reading `len` bytes at offset `off` of a shorter buffer reads outside
  it.  `sizeSub` and `bufSlice` return `none` exactly there.  The decrypt paths are
  written in the `Option` monad over them, so `none` is the model's name for "the C
  program has left defined behaviour" (an out-of-range access, a wrapped difference, or a
  failed `assert`), and index safety is the statement that `none` is never reached.
* The nonce is a byte array that `sodium_increment` treats as a little-endian counter.
  `leBytes w x` is the `w`-byte encoding `LE(x)` of the wire format, and
  `sodiumIncrement_leBytes` says the libsodium loop steps it to `LE(x + 1)`, wrapping at
  `2^(8w)` as the loop does.
-/

namespace ShadowAead

/-- A byte buffer. -/
abbrev Bytes := List UInt8

/-- `CHUNK_SIZE_LEN`: the width of the encrypted length field. -/
def chunkSizeLen : Nat := 2

/-- `CHUNK_SIZE_MASK`: the largest payload one chunk may carry. -/
def chunkSizeMask : Nat := 0x3FFF

theorem toNat_ofNat_byte (x : Nat) : (UInt8.ofNat x).toNat = x % 256 := rfl

/-! ## C arithmetic that is defined only in range -/

/-- The `size_t` difference `a - b`, defined only when it does not wrap. -/
def sizeSub (a b : Nat) : Option Nat :=
  if b ≤ a then some (a - b) else none

/-- The `len` bytes at offset `off` of `buf`, defined only when they lie inside it. -/
def bufSlice (buf : Bytes) (off len : Nat) : Option Bytes :=
  if off + len ≤ buf.length then some ((buf.drop off).take len) else none

/-- A condition the C program needs for a defined result: an `assert`, or a write that fits
the buffer it lands in. -/
def cCheck (b : Prop) [Decidable b] : Option Unit := if b then some () else none

@[simp] theorem cCheck_of {b : Prop} [Decidable b] (h : b) : cCheck b = some () := by
  simp [cCheck, h]

@[simp] theorem sizeSub_of_le {a b : Nat} (h : b ≤ a) : sizeSub a b = some (a - b) := by
  simp [sizeSub, h]

@[simp] theorem bufSlice_of_le {buf : Bytes} {off len : Nat} (h : off + len ≤ buf.length) :
    bufSlice buf off len = some ((buf.drop off).take len) := by
  simp [bufSlice, h]

/-! ## The length field

`aead_chunk_encrypt` stores `htons(real_plen)` through `memcpy`, and `aead_chunk_decrypt`
reads it back with `ntohs(*(uint16_t *)len_buf)`: two bytes, high byte first. -/

/-- `htons(x)` as it lands in `len_buf`: the 16-bit value `x`, high byte first. -/
def htons (x : Nat) : Bytes := [UInt8.ofNat (x / 256), UInt8.ofNat x]

/-- `ntohs(*(uint16_t *)len_buf)`: the first two bytes of `b` as a big-endian number. -/
def ntohs (b : Bytes) : Nat := (b.getD 0 0).toNat * 256 + (b.getD 1 0).toNat

@[simp] theorem length_htons (x : Nat) : (htons x).length = chunkSizeLen := rfl

theorem ntohs_htons {x : Nat} (h : x < 65536) : ntohs (htons x) = x := by
  simp only [ntohs, htons, List.getD_cons_zero, List.getD_cons_succ, toNat_ofNat_byte]
  omega

/-- Two bytes read as a length and written back are the same two bytes. -/
theorem htons_ntohs {b : Bytes} (h : b.length = chunkSizeLen) : htons (ntohs b) = b := by
  match b, h with
  | [x, y], _ =>
    have hx : x.toNat < 256 := x.toNat_lt_size
    have hy : y.toNat < 256 := y.toNat_lt_size
    simp only [htons, ntohs, List.getD_cons_zero, List.getD_cons_succ, List.cons.injEq, and_true]
    constructor <;> apply UInt8.toNat.inj <;> rw [toNat_ofNat_byte] <;> omega

/-! ## The nonce counter -/

/-- `LE(x)` on `w` bytes: the little-endian encoding of `x` modulo `2^(8w)`. -/
def leBytes : Nat → Nat → Bytes
  | 0, _ => []
  | w + 1, x => UInt8.ofNat x :: leBytes w (x / 256)

/-- The number a little-endian byte string holds. -/
def leValue : Bytes → Nat
  | [] => 0
  | b :: bs => b.toNat + 256 * leValue bs

/-- The loop of `sodium_increment` from carry `c`: each byte becomes `(c + n[i]) mod 256`
and the carry `(c + n[i]) >> 8` moves on; the last carry is dropped. -/
def addCarry : Nat → Bytes → Bytes
  | _, [] => []
  | c, b :: bs => UInt8.ofNat (c + b.toNat) :: addCarry ((c + b.toNat) / 256) bs

/-- `sodium_increment(n, nlen)` (libsodium): add one to the little-endian counter `n`. -/
def sodiumIncrement (n : Bytes) : Bytes := addCarry 1 n

@[simp] theorem length_leBytes (w x : Nat) : (leBytes w x).length = w := by
  induction w generalizing x with
  | zero => rfl
  | succ w ih => simp [leBytes, ih]

theorem addCarry_leBytes (w x c : Nat) : addCarry c (leBytes w x) = leBytes w (x + c) := by
  induction w generalizing x c with
  | zero => rfl
  | succ w ih =>
    simp only [leBytes, addCarry, ih, List.cons.injEq]
    refine ⟨UInt8.toNat.inj ?_, congrArg _ ?_⟩ <;> simp only [toNat_ofNat_byte] <;> omega

@[simp] theorem sodiumIncrement_leBytes (w x : Nat) :
    sodiumIncrement (leBytes w x) = leBytes w (x + 1) :=
  addCarry_leBytes w x 1

theorem leBytes_zero (w : Nat) : leBytes w 0 = List.replicate w 0 := by
  induction w with
  | zero => rfl
  | succ w ih => simp only [leBytes, Nat.zero_div, ih]; rfl

theorem leValue_leBytes (w x : Nat) : leValue (leBytes w x) = x % 256 ^ w := by
  induction w generalizing x with
  | zero => simp [leBytes, leValue, Nat.mod_one]
  | succ w ih =>
    rw [leBytes, leValue, ih, toNat_ofNat_byte, Nat.pow_succ', Nat.mod_mul]

/-- Below `2^(8w)` the counter encodings are pairwise distinct. -/
theorem leBytes_injective {w x y : Nat} (hx : x < 256 ^ w) (hy : y < 256 ^ w)
    (h : leBytes w x = leBytes w y) : x = y := by
  have := congrArg leValue h
  rwa [leValue_leBytes, leValue_leBytes, Nat.mod_eq_of_lt hx, Nat.mod_eq_of_lt hy] at this

/-- `LE(x)` only sees `x` modulo `2^(8w)`. -/
theorem leBytes_mod (w x : Nat) : leBytes w (x % 2 ^ (8 * w)) = leBytes w x := by
  induction w generalizing x with
  | zero => rfl
  | succ w ih =>
    have hdiv : x % 2 ^ (8 * (w + 1)) / 256 = x / 256 % 2 ^ (8 * w) := by
      rw [show 2 ^ (8 * (w + 1)) = 256 * 2 ^ (8 * w) by rw [Nat.mul_succ, Nat.pow_add]; omega,
        Nat.mod_mul_right_div_self]
    simp only [leBytes, hdiv, ih, List.cons.injEq, and_true]
    apply UInt8.toNat.inj
    simp only [toNat_ofNat_byte, show 2 ^ (8 * (w + 1)) = 256 * 2 ^ (8 * w) by
      rw [Nat.mul_succ, Nat.pow_add]; omega, Nat.mod_mul_right_mod]

end ShadowAead
