import Flix.Lib.Bytes
import Mathlib.Data.BitVec

/-!
# A 64-bit address space

Memory as a processor sees it: every 64-bit address has a byte, and addresses
wrap around. Distances are measured upwards, `(x - a).toNat` being how far `x`
lies above `a`, so that a range needs no side condition about the end of the
address space.

`load` and `store` are the little-endian words of `Bytes`, moved to the address
`a`. On top of them stand lists of 64-bit words: `loadWords` reads one upwards,
and `pushWords` writes one downwards, as a stack does.
-/

namespace Flix.Space

open Bytes

abbrev Addr := BitVec 64

/-- A byte for every address. -/
abbrev Memory := Addr → UInt8

/-- The memory as seen from `a` upwards. -/
def above (m : Memory) (a : Addr) : Mem := fun o => m (a + BitVec.ofNat 64 o)

def load (m : Memory) (a : Addr) (n : Nat) : Nat := readLE (above m a) 0 n

def store (m : Memory) (a : Addr) (n v : Nat) : Memory :=
  fun x => writeLE (above m a) 0 n v (x - a).toNat

/-- Stores the first `n` bytes of `f`. -/
def storeBlock (m : Memory) (a : Addr) (n : Nat) (f : Nat → UInt8) : Memory :=
  fun x => if (x - a).toNat < n then f (x - a).toNat else m x

def loadQ (m : Memory) (a : Addr) : BitVec 64 := BitVec.ofNat 64 (load m a 8)

def storeQ (m : Memory) (a : Addr) (v : BitVec 64) : Memory := store m a 8 v.toNat

/-- The 64-bit words from `a` upwards. -/
def loadWords (m : Memory) (a : Addr) : Nat → List (BitVec 64)
  | 0 => []
  | k + 1 => loadQ m a :: loadWords m (a + 8) k

/-- Stores the words from `a` upwards. -/
def storeWords (m : Memory) (a : Addr) : List (BitVec 64) → Memory
  | [] => m
  | w :: ws => storeWords (storeQ m a w) (a + 8) ws

/-- Pushes the words onto a stack whose top is at `a`. -/
def pushWords (m : Memory) (a : Addr) : List (BitVec 64) → Memory
  | [] => m
  | w :: ws => pushWords (storeQ m (a - 8) w) (a - 8) ws

/-! ## Distances -/

/-- The range of `k` bytes at `b` has nothing in common with the `n` bytes at `a`. -/
def Apart (a : Addr) (n : Nat) (b : Addr) (k : Nat) : Prop :=
  ∀ i < k, n ≤ (b + BitVec.ofNat 64 i - a).toNat

variable {o n k : Nat} {m m' : Memory} {a : Addr}

theorem sub_toNat_of_offset (a : Addr) (h : o < 2 ^ 64) :
    (a + BitVec.ofNat 64 o - a).toNat = o := by
  rw [BitVec.add_comm, BitVec.add_sub_cancel, BitVec.toNat_ofNat, Nat.mod_eq_of_lt h]

theorem above_of_sub (m : Memory) (a x : Addr) : above m a (x - a).toNat = m x := by
  unfold above
  rw [BitVec.ofNat_toNat, BitVec.setWidth_eq, BitVec.add_comm, BitVec.sub_add_cancel]

theorem above_add (m : Memory) (a : Addr) (o p : Nat) :
    above m (a + BitVec.ofNat 64 o) p = above m a (o + p) := by
  unfold above
  rw [BitVec.add_assoc, BitVec.ofNat_add]

/-- Ranges given by their distances from a common address. -/
theorem apart_of_offsets (c : Addr) {p : Nat}
    (h : o + n ≤ p ∧ p + k ≤ 2 ^ 64 + o ∨ p + k ≤ o ∧ o + n ≤ 2 ^ 64 + p) :
    Apart (c + BitVec.ofNat 64 o) n (c + BitVec.ofNat 64 p) k := by
  intro i hi
  have e : c + BitVec.ofNat 64 p + BitVec.ofNat 64 i - (c + BitVec.ofNat 64 o)
      = BitVec.ofNat 64 (p + i) - BitVec.ofNat 64 o := by
    rw [BitVec.ofNat_add]
    ring
  rw [e, BitVec.toNat_sub, BitVec.toNat_ofNat, BitVec.toNat_ofNat]
  omega

/-! ## Loads and stores -/

/-- The two memories agree on the `n` bytes at `a`. -/
def Same (m m' : Memory) (a : Addr) (n : Nat) : Prop := ∀ i < n, above m' a i = above m a i

theorem Same.refl : Same m m a n := fun _ _ => rfl

theorem Same.trans {m1 m2 m3 : Memory} (h : Same m1 m2 a n)
    (h' : Same m2 m3 a n) : Same m1 m3 a n :=
  fun i hi => (h' i hi).trans (h i hi)

/-- Agreement on a range is agreement on each part of it. -/
theorem Same.part (h : Same m m' a n) (hk : o + k ≤ n) : Same m m' (a + BitVec.ofNat 64 o) k := by
  intro i hi
  rw [above_add, above_add]
  exact h (o + i) (by omega)

theorem store_of_le {x : Addr} {v : Nat} (h : n ≤ (x - a).toNat) : store m a n v x = m x := by
  unfold store
  rw [writeLE_outside (by omega), above_of_sub]

theorem same_store {b : Addr} {v : Nat} (h : Apart a n b k) : Same m (store m a n v) b k :=
  fun i hi => store_of_le (h i hi)

theorem same_storeBlock {b : Addr} {f : Nat → UInt8}
    (h : Apart a n b k) : Same m (storeBlock m a n f) b k :=
  fun i hi => if_neg (by have := h i hi; omega)

theorem load_of_same (h : Same m m' a n) : load m' a n = load m a n :=
  readLE_congr fun x _ hx => h x (by omega)

theorem load_store_self (m : Memory) (a : Addr) (v : Nat) (hn : n ≤ 2 ^ 64) :
    load (store m a n v) a n = v % 256 ^ n := by
  have h : load (store m a n v) a n = readLE (writeLE (above m a) 0 n v) 0 n := by
    refine readLE_congr fun x _ hx => ?_
    show writeLE (above m a) 0 n v (a + BitVec.ofNat 64 x - a).toNat = _
    rw [sub_toNat_of_offset a (by omega)]
  rw [h, readLE_writeLE_self]

theorem loadQ_of_same (h : Same m m' a 8) : loadQ m' a = loadQ m a := by
  rw [loadQ, loadQ, load_of_same h]

theorem loadQ_storeQ (m : Memory) (a : Addr) (v : BitVec 64) : loadQ (storeQ m a v) a = v := by
  rw [loadQ, storeQ, load_store_self m a v.toNat (by decide)]
  refine BitVec.eq_of_toNat_eq ?_
  rw [BitVec.toNat_ofNat]
  omega

/-! ## Lists of words -/

theorem length_loadWords (m : Memory) : ∀ (k : Nat) (a : Addr), (loadWords m a k).length = k
  | 0, _ => rfl
  | k + 1, a => by rw [loadWords, List.length_cons, length_loadWords m k]

theorem loadWords_of_same : ∀ {k : Nat} {a : Addr}, Same m m' a (8 * k) →
    loadWords m' a k = loadWords m a k
  | 0, _, _ => rfl
  | k + 1, a, h => by
    have hhead : Same m m' a 8 := fun i hi => h i (by omega)
    have htail : Same m m' (a + 8) (8 * k) := h.part (o := 8) (by omega)
    rw [loadWords, loadWords, loadQ_of_same hhead, loadWords_of_same htail]

theorem loadWords_succ (m : Memory) : ∀ (k : Nat) (a : Addr),
    loadWords m a (k + 1) = loadWords m a k ++ [loadQ m (a + BitVec.ofNat 64 (8 * k))]
  | 0, a => by simp [loadWords]
  | k + 1, a => by
    have e : a + 8 + BitVec.ofNat 64 (8 * k) = a + BitVec.ofNat 64 (8 * (k + 1)) := by
      rw [Nat.mul_succ, Nat.add_comm, BitVec.ofNat_add, BitVec.add_assoc]
      rfl
    rw [loadWords, loadWords_succ m k (a + 8), e]
    rfl

theorem getElem?_loadWords (m : Memory) : ∀ {k i : Nat} {a : Addr}, i < k →
    (loadWords m a k)[i]? = some (loadQ m (a + BitVec.ofNat 64 (8 * i)))
  | k + 1, 0, a, _ => by simp [loadWords]
  | k + 1, i + 1, a, h => by
    have e : a + 8 + BitVec.ofNat 64 (8 * i) = a + BitVec.ofNat 64 (8 * (i + 1)) := by
      rw [Nat.mul_succ, Nat.add_comm, BitVec.ofNat_add, BitVec.add_assoc]
      rfl
    rw [loadWords, List.getElem?_cons_succ, getElem?_loadWords m (by omega), e]

/-- Storing words leaves what lies outside of them alone. -/
theorem same_storeWords {m : Memory} : ∀ {ws : List (BitVec 64)} {a b : Addr} {k : Nat},
    Apart a (8 * ws.length) b k → Same m (storeWords m a ws) b k
  | [], _, _, _, _ => Same.refl
  | w :: ws, a, b, k, h => by
    refine (same_store fun i hi => ?_).trans (same_storeWords (a := a + 8) fun i hi => ?_)
    · have := h i hi
      rw [List.length_cons] at this
      omega
    · have := h i hi
      rw [List.length_cons] at this
      have e : b + BitVec.ofNat 64 i - (a + 8) = b + BitVec.ofNat 64 i - a - 8 := by ring
      rw [e]
      bv_omega

/-- Words read back as they were stored. -/
theorem loadWords_storeWords {m : Memory} : ∀ {ws : List (BitVec 64)} {a : Addr},
    8 * ws.length ≤ 2 ^ 64 → loadWords (storeWords m a ws) a ws.length = ws
  | [], _, _ => rfl
  | w :: ws, a, h => by
    rw [List.length_cons] at h ⊢
    have hhead : loadQ (storeWords (storeQ m a w) (a + 8) ws) a = w := by
      have hap : Apart (a + 8) (8 * ws.length) (a + BitVec.ofNat 64 0) 8 :=
        apart_of_offsets a (o := 8) (by omega)
      rw [BitVec.add_zero] at hap
      rw [loadQ_of_same (same_storeWords hap), loadQ_storeQ]
    rw [storeWords, loadWords, hhead, loadWords_storeWords (by omega)]

theorem sub_push (a : Addr) (k : Nat) :
    a - BitVec.ofNat 64 (8 * (k + 1)) = a - 8 - BitVec.ofNat 64 (8 * k) := by
  rw [Nat.mul_succ, BitVec.ofNat_add, show BitVec.ofNat 64 8 = 8 from rfl]
  ring

/-- Pushing words leaves what lies outside of them alone. -/
theorem same_pushWords {m : Memory} : ∀ {ws : List (BitVec 64)} {a b : Addr} {k : Nat},
    Apart (a - BitVec.ofNat 64 (8 * ws.length)) (8 * ws.length) b k →
    Same m (pushWords m a ws) b k
  | [], _, _, _, _ => Same.refl
  | w :: ws, a, b, k, h => by
    rw [List.length_cons, sub_push] at h
    refine (same_store fun i hi => ?_).trans (same_pushWords (a := a - 8) fun i hi => ?_)
    · -- the distance to the first word is what is left above the others
      have hd := h i hi
      have e : b + BitVec.ofNat 64 i - (a - 8 - BitVec.ofNat 64 (8 * ws.length))
          = b + BitVec.ofNat 64 i - (a - 8) + BitVec.ofNat 64 (8 * ws.length) := by ring
      rw [e, BitVec.toNat_add, BitVec.toNat_ofNat] at hd
      have := (b + BitVec.ofNat 64 i - (a - 8)).isLt
      omega
    · have := h i hi
      omega

/-- Pushed words are read in the opposite order. -/
theorem loadWords_pushWords {m : Memory} : ∀ (ws : List (BitVec 64)) (a : Addr),
    8 * ws.length ≤ 2 ^ 64 →
    loadWords (pushWords m a ws) (a - BitVec.ofNat 64 (8 * ws.length)) ws.length = ws.reverse
  | [], _, _ => rfl
  | w :: ws, a, h => by
    rw [List.length_cons] at h ⊢
    have hlast : loadQ (pushWords (storeQ m (a - 8) w) (a - 8) ws) (a - 8) = w := by
      have hap : Apart (a - 8 - BitVec.ofNat 64 (8 * ws.length) + BitVec.ofNat 64 0)
          (8 * ws.length) (a - 8 - BitVec.ofNat 64 (8 * ws.length)
            + BitVec.ofNat 64 (8 * ws.length)) 8 := apart_of_offsets _ (by omega)
      rw [BitVec.add_zero, BitVec.sub_add_cancel] at hap
      rw [loadQ_of_same (same_pushWords hap), loadQ_storeQ]
    rw [sub_push, loadWords_succ, pushWords, loadWords_pushWords ws (a - 8) (by omega),
      BitVec.sub_add_cancel, hlast, List.reverse_cons]

end Flix.Space
