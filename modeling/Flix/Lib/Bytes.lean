import Mathlib.Tactic.Ring

/-!
# Byte-addressed memory

A memory is a function from addresses to bytes; addresses are natural numbers.
`readLE` and `writeLE` move little-endian words of any width through it.

Two facts carry everything built on top: a word reads back as it was written,
and a write is invisible to a read of a disjoint range. Both are proved for
every width at once, so that a 4-byte block header and an 8-byte stack slot are
the same lemma at two numbers.
-/

namespace Flix.Bytes

/-- A byte-addressed memory. -/
abbrev Mem := Nat → UInt8

/-- The `n`-byte little-endian word at `a`. -/
def readLE (m : Mem) (a : Nat) : Nat → Nat
  | 0 => 0
  | n + 1 => (m a).toNat + 256 * readLE m (a + 1) n

/-- Store the low `n` bytes of `v` at `a`, least significant first. -/
def writeLE (m : Mem) (a n v : Nat) : Mem :=
  fun x => if a ≤ x ∧ x < a + n then UInt8.ofNat (v / 256 ^ (x - a)) else m x

variable {m : Mem}

theorem writeLE_outside {a n v x : Nat} (h : x < a ∨ a + n ≤ x) : writeLE m a n v x = m x := by
  unfold writeLE
  rw [if_neg (by omega)]

theorem readLE_congr {m' : Mem} : ∀ {n a : Nat},
    (∀ x, a ≤ x → x < a + n → m x = m' x) → readLE m a n = readLE m' a n
  | 0, _, _ => rfl
  | n + 1, a, h => by
    rw [readLE, readLE, h a (Nat.le_refl _) (by omega),
      readLE_congr (n := n) (fun x h1 h2 => h x (by omega) (by omega))]

/-- The same bytes read the same, wherever they are. -/
theorem readLE_copy {m' : Mem} : ∀ {n a a' : Nat},
    (∀ i < n, m (a + i) = m' (a' + i)) → readLE m a n = readLE m' a' n
  | 0, _, _, _ => rfl
  | n + 1, a, a', h => by
    have hhead : m a = m' a' := h 0 (by omega)
    have htail : readLE m (a + 1) n = readLE m' (a' + 1) n := by
      refine readLE_copy fun i hi => ?_
      rw [Nat.add_right_comm a, Nat.add_right_comm a']
      exact h (i + 1) (by omega)
    rw [readLE, readLE, hhead, htail]

/-- A word reads back as it was written, cut to its width. -/
theorem readLE_writeLE_self : ∀ (n a v : Nat), readLE (writeLE m a n v) a n = v % 256 ^ n
  | 0, _, v => by rw [readLE]; omega
  | n + 1, a, v => by
    have htail : readLE (writeLE m a (n + 1) v) (a + 1) n
        = readLE (writeLE m (a + 1) n (v / 256)) (a + 1) n := by
      refine readLE_congr (fun x h1 h2 => ?_)
      unfold writeLE
      rw [if_pos (by omega), if_pos (by omega)]
      have hx : x - a = x - (a + 1) + 1 := by omega
      rw [hx, pow_succ', Nat.div_div_eq_div_mul]
    have hhead : (writeLE m a (n + 1) v a).toNat = v % 256 := by
      unfold writeLE
      simp
    rw [readLE, htail, readLE_writeLE_self n, hhead, pow_succ', Nat.mod_mul]

theorem readLE_lt (m : Mem) : ∀ (n a : Nat), readLE m a n < 256 ^ n
  | 0, _ => by simp [readLE]
  | n + 1, a => by
    have h1 := readLE_lt m n (a + 1)
    have h2 := (m a).toNat_lt
    rw [readLE]
    omega

end Flix.Bytes
