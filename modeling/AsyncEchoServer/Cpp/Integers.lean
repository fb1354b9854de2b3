import Mathlib.Data.List.Basic
import Mathlib.Data.Int.Basic

/-!
# `Cpp/Integers.lean` — the integer types the servers mix

`short` is `Int16`: a stored length or id cannot leave its range, and every store narrows.
`int` is `Int` (no expression in the servers leaves 32 bits) and `size_t` is a `Nat` below
`2 ^ 64`, with `toSizeT` the conversion an `int` or a `short` goes through when it meets one in
a comparison, a sum or a copy size. A negative length therefore becomes a huge size here, as it
does there.

The host is little-endian: `storeShort` and `loadShort` are the two `memcpy`s between a `short`
and its bytes, and the network-order conversions swap bytes. `bigEndianShort` is what the wire
means by two bytes; `networkToHost_load` and `store_hostToNetwork` say the code agrees with it.
-/

set_option autoImplicit false

namespace AsyncEchoServer

abbrev Bytes := List UInt8

/-- `short`. -/
abbrev Short := Int16

/-- Conversion to `size_t`: reduction modulo `2 ^ 64`. -/
def toSizeT (i : Int) : Nat := (i % 18446744073709551616).toNat

/-- Narrowing to `short`: reduction modulo `2 ^ 16` into `-32768 .. 32767`. -/
def toShort (i : Int) : Short := Int16.ofInt i

/-! ## Conversions that change nothing -/

theorem short_lt (x : Short) : x.toInt < 32768 := x.toInt_lt

theorem le_short (x : Short) : -32768 ≤ x.toInt := x.le_toInt

theorem toShort_toInt {i : Int} (hlo : -32768 ≤ i) (hhi : i < 32768) :
    (toShort i).toInt = i := Int16.toInt_ofInt_of_le hlo hhi

theorem toSizeT_of_nonneg {i : Int} (h₀ : 0 ≤ i) (h : i < 18446744073709551616) :
    toSizeT i = i.toNat := by
  unfold toSizeT
  rw [Int.emod_eq_of_lt h₀ h]

@[simp] theorem toSizeT_natCast {n : Nat} (h : n < 18446744073709551616) :
    toSizeT (n : Int) = n := by
  rw [toSizeT_of_nonneg (by omega) (by omega), Int.toNat_natCast]

theorem toSizeT_short {x : Short} (h : 0 ≤ x.toInt) : toSizeT x.toInt = x.toInt.toNat :=
  toSizeT_of_nonneg h (by have := short_lt x; omega)

/-- A negative `short` is at least `2 ^ 64 - 32768` as a size. -/
theorem toSizeT_short_neg {x : Short} (h : x.toInt < 0) :
    18446744073709518848 ≤ toSizeT x.toInt := by
  have := le_short x
  unfold toSizeT
  omega

/-! ## The sixteen bits of a `short` -/

/-- The unsigned reading of a `short`'s bits. -/
def bits (x : Short) : Nat := (x.toInt % 65536).toNat

theorem bits_lt (x : Short) : bits x < 65536 := by
  unfold bits
  omega

/-- The bits of a narrowed number are its residue. -/
theorem bits_toShort (i : Int) : bits (toShort i) = (i % 65536).toNat := by
  unfold bits toShort
  rw [Int16.toInt_ofInt]
  exact congrArg Int.toNat (Int.bmod_emod (x := i) (m := 65536))

theorem bits_toShort_nat {n : Nat} (h : n < 65536) : bits (toShort (n : Int)) = n := by
  rw [bits_toShort]
  omega

/-- A `short` is determined by its bits. -/
theorem toShort_bits (x : Short) : toShort (bits x : Int) = x := by
  have hlo := le_short x
  have hhi := short_lt x
  rw [← Int16.toInt_inj, toShort, Int16.toInt_ofInt]
  show ((bits x : Nat) : Int).bmod 65536 = x.toInt
  unfold bits
  rw [Int.toNat_of_nonneg (by omega)]
  exact (Int.emod_bmod (x := x.toInt) (n := 65536)).trans
    (Int.bmod_eq_of_le (by omega) (by omega))

/-- `memcpy(&x, p, 2)` into a `short`, on a little-endian host. -/
def loadShort (b : Bytes) : Short :=
  toShort ((b.getD 0 0).toNat + 256 * (b.getD 1 0).toNat : Nat)

/-- `memcpy(p, &x, 2)` from a `short`, on a little-endian host. -/
def storeShort (x : Short) : Bytes :=
  [UInt8.ofNat (bits x % 256), UInt8.ofNat (bits x / 256)]

/-- The byte swap behind both 16-bit network conversions. -/
def swapShort (x : Short) : Short := toShort (bits x % 256 * 256 + bits x / 256 : Nat)

def networkToHostShort (x : Short) : Short := swapShort x

def hostToNetworkShort (x : Short) : Short := swapShort x

/-- Two bytes read as a big-endian signed 16-bit number. -/
def bigEndianShort (hi lo : UInt8) : Short := toShort (256 * hi.toNat + lo.toNat : Nat)

/-- The two bytes of a `short` in network order. -/
def networkBytes (x : Short) : Bytes := [UInt8.ofNat (bits x / 256), UInt8.ofNat (bits x % 256)]

@[simp] theorem networkBytes_length (x : Short) : (networkBytes x).length = 2 := rfl

@[simp] theorem storeShort_length (x : Short) : (storeShort x).length = 2 := rfl

theorem bits_swapShort (x : Short) : bits (swapShort x) = bits x % 256 * 256 + bits x / 256 := by
  have := bits_lt x
  exact bits_toShort_nat (by omega)

theorem bits_bigEndianShort (hi lo : UInt8) :
    bits (bigEndianShort hi lo) = 256 * hi.toNat + lo.toNat := by
  have := hi.toNat_lt
  have := lo.toNat_lt
  exact bits_toShort_nat (by omega)

/-- **Reading a header field**: two `memcpy`ed bytes through `network_to_host_short` are the
big-endian number on the wire. -/
theorem networkToHost_load (b : Bytes) :
    networkToHostShort (loadShort b) = bigEndianShort (b.getD 0 0) (b.getD 1 0) := by
  have h0 := (b.getD 0 0).toNat_lt
  have h1 := (b.getD 1 0).toNat_lt
  unfold networkToHostShort swapShort loadShort bigEndianShort
  rw [bits_toShort_nat (by omega),
    show ((b.getD 0 0).toNat + 256 * (b.getD 1 0).toNat) % 256 = (b.getD 0 0).toNat by omega,
    show ((b.getD 0 0).toNat + 256 * (b.getD 1 0).toNat) / 256 = (b.getD 1 0).toNat by omega,
    Nat.mul_comm]

/-- **Writing a header field**: a `short` through `host_to_network_short` and `memcpy` is its two
bytes in network order. -/
theorem store_hostToNetwork (x : Short) :
    storeShort (hostToNetworkShort x) = networkBytes x := by
  have hlt := bits_lt x
  unfold storeShort hostToNetworkShort networkBytes
  rw [bits_swapShort, show (bits x % 256 * 256 + bits x / 256) % 256 = bits x / 256 by omega,
    show (bits x % 256 * 256 + bits x / 256) / 256 = bits x % 256 by omega]

/-- Network bytes read back as the number. -/
theorem bigEndianShort_networkBytes (x : Short) (rest : Bytes) :
    bigEndianShort ((networkBytes x ++ rest).getD 0 0) ((networkBytes x ++ rest).getD 1 0) = x := by
  have hlt := bits_lt x
  unfold networkBytes bigEndianShort
  simp only [List.cons_append, List.getD_cons_zero, List.getD_cons_succ, UInt8.toNat_ofNat']
  rw [show 256 * (bits x / 256 % 2 ^ 8) + bits x % 256 % 2 ^ 8 = bits x by omega, toShort_bits]

/-- … and two bytes are the network bytes of the number they read as. -/
theorem networkBytes_bigEndianShort (hi lo : UInt8) :
    networkBytes (bigEndianShort hi lo) = [hi, lo] := by
  have h0 := hi.toNat_lt
  have h1 := lo.toNat_lt
  unfold networkBytes
  rw [bits_bigEndianShort, show (256 * hi.toNat + lo.toNat) / 256 = hi.toNat by omega,
    show (256 * hi.toNat + lo.toNat) % 256 = lo.toNat by omega, UInt8.ofNat_toNat,
    UInt8.ofNat_toNat]

/-! ## The 32-bit conversion -/

/-- `host_to_network_long` of a `short` converted to 32 bits: the byte-swapped value. -/
def hostToNetworkLong (x : Short) : Nat :=
  let n := (x.toInt % 4294967296).toNat
  n % 256 * 16777216 + n / 256 % 256 * 65536 + n / 65536 % 256 * 256 + n / 16777216

/-- The bytes of a 32-bit integer in the memory of a little-endian host. -/
def storeLong (n : Nat) : Bytes :=
  [UInt8.ofNat (n % 256), UInt8.ofNat (n / 256 % 256), UInt8.ofNat (n / 65536 % 256),
    UInt8.ofNat (n / 16777216 % 256)]

/-- Of a non-negative `short` widened to 32 bits and put in network order, the first two bytes
in memory are the high half, so both are zero. -/
theorem storeLong_hostToNetworkLong_take {x : Short} (h : 0 ≤ x.toInt) :
    (storeLong (hostToNetworkLong x)).take 2 = [0, 0] := by
  have hlt := short_lt x
  obtain ⟨n, hn, hswap⟩ : ∃ n : Nat, n < 32768 ∧ hostToNetworkLong x =
      n % 256 * 16777216 + n / 256 % 256 * 65536 + n / 65536 % 256 * 256 + n / 16777216 :=
    ⟨(x.toInt % 4294967296).toNat, by omega, rfl⟩
  -- the two high bytes of a `short`
  have hhigh : n / 65536 = 0 ∧ n / 16777216 = 0 := by omega
  rw [hhigh.1, hhigh.2, Nat.zero_mod, Nat.zero_mul, Nat.add_zero] at hswap
  have hlo : hostToNetworkLong x % 256 = 0 := by omega
  have hhi : hostToNetworkLong x / 256 % 256 = 0 := by omega
  rw [storeLong, hlo, hhi, List.take_succ_cons, List.take_succ_cons, List.take_zero]
  rfl

end AsyncEchoServer
