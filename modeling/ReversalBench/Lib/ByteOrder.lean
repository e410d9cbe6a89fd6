import Mathlib.Data.List.Basic
import Mathlib.Algebra.Order.Group.Nat
import Mathlib.Tactic.Ring

/-! Fixed-width base-256 numerals and the byte order of a host. A word is stored
with its low byte first or last; the network conversion of the host makes the
stored bytes the same on both. -/

namespace ReversalBench

/-- The order in which a host stores the bytes of a word. -/
inductive ByteOrder where
  | little | big
  deriving DecidableEq

namespace ByteOrder

/-- The `k` low base-256 digits of a number, least significant first. -/
def lowBytes : ℕ → ℕ → List UInt8
  | 0, _ => []
  | k + 1, n => UInt8.ofNat n :: lowBytes k (n / 256)

/-- The number with the given base-256 digits, least significant first. -/
def lowValue : List UInt8 → ℕ
  | [] => 0
  | b :: bs => b.toNat + 256 * lowValue bs

@[simp] theorem length_lowBytes (k n : ℕ) : (lowBytes k n).length = k := by
  induction k generalizing n with
  | zero => rfl
  | succ k ih => simp [lowBytes, ih]

theorem lowValue_lowBytes (k n : ℕ) : lowValue (lowBytes k n) = n % 256 ^ k := by
  induction k generalizing n with
  | zero => simp [lowBytes, lowValue, Nat.mod_one]
  | succ k ih =>
    have hb : (UInt8.ofNat n).toNat = n % 256 := rfl
    rw [lowBytes, lowValue, ih, hb, pow_succ, Nat.mul_comm (256 ^ k), Nat.mod_mul]

theorem lowBytes_lowValue (bs : List UInt8) : lowBytes bs.length (lowValue bs) = bs := by
  induction bs with
  | nil => rfl
  | cons b bs ih =>
    have hlt : b.toNat < 256 := b.toNat_lt
    have hb : UInt8.ofNat (b.toNat + 256 * lowValue bs) = b := by
      apply UInt8.toNat_inj.mp
      change (b.toNat + 256 * lowValue bs) % 256 = b.toNat
      omega
    have hd : (b.toNat + 256 * lowValue bs) / 256 = lowValue bs := by omega
    rw [List.length_cons, lowValue, lowBytes, hb, hd, ih]

theorem lowBytes_mod (k n : ℕ) : lowBytes k (n % 256 ^ k) = lowBytes k n := by
  have h := lowBytes_lowValue (lowBytes k n)
  rwa [length_lowBytes, lowValue_lowBytes] at h

theorem lowValue_lt (bs : List UInt8) : lowValue bs < 256 ^ bs.length := by
  rw [← lowBytes_lowValue bs, lowValue_lowBytes, length_lowBytes]
  exact Nat.mod_lt _ (Nat.pow_pos (by decide))

/-- The `k` bytes in which a host keeps a number. -/
def store (k n : ℕ) : ByteOrder → List UInt8
  | little => lowBytes k n
  | big => (lowBytes k n).reverse

/-- The number a host sees in some bytes. -/
def load (bs : List UInt8) : ByteOrder → ℕ
  | little => lowValue bs
  | big => lowValue bs.reverse

/-- Conversion between the order of a host and network order, in both directions:
nothing on a big-endian host, swapped bytes on a little-endian one. -/
def network (k n : ℕ) : ByteOrder → ℕ
  | little => little.load (big.store k n)
  | big => n

@[simp] theorem length_store (o : ByteOrder) (k n : ℕ) : (o.store k n).length = k := by
  cases o <;> simp [store]

theorem load_store (o : ByteOrder) (k n : ℕ) : o.load (o.store k n) = n % 256 ^ k := by
  cases o <;> simp [load, store, lowValue_lowBytes]

/-- Only the digits that fit are stored. -/
theorem store_mod (o : ByteOrder) (k n : ℕ) : o.store k (n % 256 ^ k) = o.store k n := by
  cases o <;> simp [store, lowBytes_mod]

theorem store_load (o : ByteOrder) (bs : List UInt8) : o.store bs.length (o.load bs) = bs := by
  cases o with
  | little => exact lowBytes_lowValue bs
  | big =>
    have h := lowBytes_lowValue bs.reverse
    rw [List.length_reverse] at h
    rw [store, load, h, List.reverse_reverse]

theorem load_lt (o : ByteOrder) (bs : List UInt8) : o.load bs < 256 ^ bs.length := by
  cases o with
  | little => exact lowValue_lt bs
  | big => simpa [load] using lowValue_lt bs.reverse

theorem network_lt (o : ByteOrder) {k n : ℕ} (h : n < 256 ^ k) : o.network k n < 256 ^ k := by
  cases o with
  | little => simpa [network] using load_lt little (big.store k n)
  | big => exact h

/-- What a host stores after the conversion does not depend on the host. -/
theorem store_network (o : ByteOrder) (k n : ℕ) :
    o.store k (o.network k n) = big.store k n := by
  cases o with
  | little => simpa [network] using store_load little (big.store k n)
  | big => rfl

/-- What a host sees after the conversion does not depend on the host. -/
theorem network_load (o : ByteOrder) (bs : List UInt8) :
    o.network bs.length (o.load bs) = big.load bs := by
  cases o with
  | little =>
    have h : lowBytes bs.length (lowValue bs) = bs := lowBytes_lowValue bs
    simp [network, store, load, h]
  | big => rfl

end ByteOrder

end ReversalBench
