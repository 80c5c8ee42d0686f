import JitBackend.Checked
import Mathlib.Tactic.ByContra

namespace JitBackend

/-!
# Memory

Memory as a map from addresses to bytes, read and written in little-endian words of up to eight
bytes. Addresses wrap around, so that a place close to a base address is named by its signed
distance from the base, whatever the base is.

* `Memory.read`, `Memory.write` — words of `n` bytes;
* `Memory.read_write` — a word reads back as it was written;
* `Memory.read_congr`, `Memory.write_of_outside` — what a word does not touch;
* `Memory.inRange_iff` — the addresses of a place, by their distance from a base.
-/

/-- The byte at each address. -/
abbrev Memory := BitVec 64 → BitVec 8

namespace Memory

/-- The address is one of the `n` from `a` on. -/
def InRange (a : BitVec 64) (n : Nat) (x : BitVec 64) : Prop :=
  (x - a).toNat < n

instance (a : BitVec 64) (n : Nat) (x : BitVec 64) : Decidable (InRange a n x) :=
  inferInstanceAs (Decidable (_ < _))

/-- Memory after the low `n` bytes of `v` are written from `a` on. -/
def write (m : Memory) (a : BitVec 64) (n : Nat) (v : BitVec 64) : Memory := fun x =>
  if InRange a n x then (v >>> (8 * (x - a).toNat)).setWidth 8 else m x

/-- The word of the `n` bytes from `a` on. -/
def read (m : Memory) (a : BitVec 64) : (n : Nat) → BitVec 64
  | 0 => 0
  | n + 1 => read m a n ||| ((m (a + BitVec.ofNat 64 n)).setWidth 64 <<< (8 * n))

/-- The low `n` bytes of a word. -/
def lowBytes (n : Nat) (v : BitVec 64) : BitVec 64 :=
  (v.setWidth (8 * n)).setWidth 64

variable {n : Nat} {a : BitVec 64}

theorem getLsbD_read (m : Memory) (a : BitVec 64) (hn : n ≤ 8) (i : Nat) : (read m a n).getLsbD i
      = (decide (i < 8 * n) && (m (a + BitVec.ofNat 64 (i / 8))).getLsbD (i % 8)) := by
  induction n with
  | zero => simp [read]
  | succ n ih =>
    rw [read, BitVec.getLsbD_or, ih (by omega), BitVec.getLsbD_shiftLeft, BitVec.getLsbD_setWidth]
    by_cases h1 : i < 8 * n
    · simp [h1, show i < 8 * (n + 1) by omega]
    · by_cases h2 : i < 8 * (n + 1)
      · have hdiv : i / 8 = n := by omega
        have hmod : i % 8 = i - 8 * n := by omega
        simp [h1, h2, hdiv, hmod, show i < 64 by omega, show i - 8 * n < 64 by omega]
      · have hbyte : (m (a + BitVec.ofNat 64 n)).getLsbD (i - 8 * n) = false :=
          BitVec.getLsbD_of_ge _ _ (by omega)
        simp [h1, h2, hbyte]

theorem getLsbD_lowBytes (n : Nat) (v : BitVec 64) (i : Nat) :
    (lowBytes n v).getLsbD i = (decide (i < 8 * n) && v.getLsbD i) := by
  simp only [lowBytes, BitVec.getLsbD_setWidth]
  by_cases hi : i < 64
  · simp [hi]
  · simp [hi, BitVec.getLsbD_of_ge v i (by omega)]

/-- A word depends on its own bytes alone. -/
theorem read_congr {m m' : Memory}
    (h : ∀ i < n, m (a + BitVec.ofNat 64 i) = m' (a + BitVec.ofNat 64 i)) :
    read m a n = read m' a n := by
  induction n with
  | zero => rfl
  | succ n ih => rw [read, read, ih fun i hi => h i (by omega), h n (by omega)]

theorem inRange_add {i : Nat} (hi : i < n) (hn : n < 2 ^ 64) :
    InRange a n (a + BitVec.ofNat 64 i) := by
  rw [InRange, BitVec.add_comm, BitVec.add_sub_cancel, BitVec.toNat_ofNat]
  omega

theorem write_of_outside (m : Memory) {x : BitVec 64} (v : BitVec 64) (h : ¬ InRange a n x) :
    write m a n v x = m x := if_neg h

/-- The low bytes of a word are a shorter word at the same place. -/
theorem lowBytes_read (m : Memory) (a : BitVec 64) {k : Nat} (hn : n ≤ k) (hk : k ≤ 8) :
    lowBytes n (read m a k) = read m a n := by
  apply BitVec.eq_of_getLsbD_eq
  intro i _
  rw [getLsbD_lowBytes, getLsbD_read m a hk, getLsbD_read m a (Nat.le_trans hn hk)]
  by_cases h : i < 8 * n
  · simp [h, show i < 8 * k by omega]
  · simp [h]

/-- A word reads back as it was written. -/
theorem read_write (m : Memory) (a : BitVec 64) (hn : n ≤ 8) (v : BitVec 64) :
    read (write m a n v) a n = lowBytes n v := by
  apply BitVec.eq_of_getLsbD_eq
  intro i hi
  rw [getLsbD_read _ _ hn, getLsbD_lowBytes]
  by_cases h : i < 8 * n
  · have hin : InRange a n (a + BitVec.ofNat 64 (i / 8)) := inRange_add (by omega) (by omega)
    have hoff : (a + BitVec.ofNat 64 (i / 8) - a).toNat = i / 8 := by
      rw [BitVec.add_comm, BitVec.add_sub_cancel, BitVec.toNat_ofNat]; omega
    rw [write, if_pos hin, hoff, BitVec.getLsbD_setWidth, BitVec.getLsbD_ushiftRight]
    have hmod : i % 8 < 8 := Nat.mod_lt _ (by omega)
    simp [h, hmod, Nat.div_add_mod]
  · simp [h]

/-- Only the low bytes of a word are written. -/
theorem write_congr (m : Memory) (a : BitVec 64) {v v' : BitVec 64}
    (h : lowBytes n v = lowBytes n v') : write m a n v = write m a n v' := by
  funext x
  by_cases hx : InRange a n x
  · rw [write, write, if_pos hx, if_pos hx]
    apply BitVec.eq_of_getLsbD_eq
    intro i hi
    have hbit := congrArg (fun w => w.getLsbD (8 * (x - a).toNat + i)) h
    have hlt : 8 * (x - a).toNat + i < 8 * n := by have : (x - a).toNat < n := hx; omega
    simp only [getLsbD_lowBytes, hlt, decide_true, Bool.true_and] at hbit
    simp only [BitVec.getLsbD_setWidth, BitVec.getLsbD_ushiftRight, hbit]
  · rw [write_of_outside m v hx, write_of_outside m v' hx]

/-- A word keeps its value if another place is written. -/
theorem read_write_of_disjoint (m : Memory) {a' : BitVec 64} {n' : Nat} (v : BitVec 64)
    (h : ∀ i < n, ¬ InRange a' n' (a + BitVec.ofNat 64 i)) :
    read (write m a' n' v) a n = read m a n :=
  read_congr fun i hi => write_of_outside m v (h i hi)

/-! ### Places near a base -/

/-- Signed distance of an address from a base. -/
def distance (base x : BitVec 64) : Int :=
  (x - base).toInt

theorem distance_add (base : BitVec 64) {d : Int} (h1 : -2 ^ 62 ≤ d) (h2 : d < 2 ^ 62) :
    distance base (base + BitVec.ofInt 64 d) = d := by
  rw [distance, BitVec.add_comm, BitVec.add_sub_cancel, BitVec.toInt_ofInt]
  exact Int.bmod_eq_of_le (by omega) (by omega)

/-- The addresses of a place, by their distance from the base. -/
theorem inRange_iff (base x : BitVec 64) {d : Int} (h1 : -2 ^ 62 ≤ d) (h2 : d + n < 2 ^ 62) :
    InRange (base + BitVec.ofInt 64 d) n x ↔ d ≤ distance base x ∧ distance base x < d + n := by
  have hx : x - (base + BitVec.ofInt 64 d) = (x - base) - BitVec.ofInt 64 d := by bv_omega
  rw [InRange, hx, distance]
  have hd : ((BitVec.ofInt 64 d).toNat : Int) = d % 2 ^ 64 := by
    rw [BitVec.toNat_ofInt]; omega
  have hy := (x - base).isLt
  rw [BitVec.toNat_sub, BitVec.toInt_eq_toNat_cond]
  split <;> omega

end Memory

end JitBackend
