import Mathlib.Tactic.IntervalCases

/-!
Words and their bytes in memory. The least significant byte of a word comes first
or last, depending on the host.
-/
namespace Plo

inductive Endian
  | little
  | big
  deriving DecidableEq

/-- Byte `k` of a word, counted from the least significant one. -/
def wordByte (w : BitVec 32) (k : Nat) : UInt8 := ⟨w.extractLsb' (8 * k) 8⟩

/-- The word four bytes make up, the first being the least significant. -/
def leWord (f : Nat → UInt8) : BitVec 32 :=
  (f 0).toBitVec.setWidth 32 ||| ((f 1).toBitVec.setWidth 32 <<< 8) |||
    ((f 2).toBitVec.setWidth 32 <<< 16) ||| ((f 3).toBitVec.setWidth 32 <<< 24)

namespace Endian

def byte (e : Endian) (w : BitVec 32) (k : Nat) : UInt8 :=
  match e with
  | .little => wordByte w k
  | .big => wordByte w (3 - k)

def word (e : Endian) (f : Nat → UInt8) : BitVec 32 :=
  match e with
  | .little => leWord f
  | .big => leWord (fun k => f (3 - k))

end Endian

theorem leWord_congr {f g : Nat → UInt8} (h : ∀ k < 4, f k = g k) : leWord f = leWord g := by
  simp only [leWord, h 0 (by decide), h 1 (by decide), h 2 (by decide), h 3 (by decide)]

theorem getLsbD_leWord (f : Nat → UInt8) (k i : Nat) (hk : k < 4) (hi : i < 8) :
    (leWord f).getLsbD (8 * k + i) = (f k).toBitVec.getLsbD i := by
  have hshift (x : BitVec 8) (s j : Nat) (hj : j < 32) :
      (x.setWidth 32 <<< s).getLsbD j = (decide (s ≤ j) && x.getLsbD (j - s)) := by
    by_cases hs : s ≤ j
    · simp [hj, hs, Nat.not_lt.mpr hs]
    · simp [hs, Nat.lt_of_not_le hs]
  have hlow (x : BitVec 8) (j : Nat) (hj : 8 ≤ j) : x.getLsbD j = false :=
    BitVec.getLsbD_of_ge x j hj
  have hj : 8 * k + i < 32 := by omega
  simp only [leWord, BitVec.getLsbD_or, hshift _ _ _ hj, BitVec.getLsbD_setWidth, hj,
    decide_true, Bool.true_and]
  interval_cases k
  · have h1 : ¬ 8 ≤ i := by omega
    have h2 : ¬ 16 ≤ i := by omega
    have h3 : ¬ 24 ≤ i := by omega
    simp [h1, h2, h3]
  · have h2 : ¬ 16 ≤ 8 + i := by omega
    have h3 : ¬ 24 ≤ 8 + i := by omega
    simp [h2, h3]
  · have h3 : ¬ 24 ≤ 16 + i := by omega
    simp [hlow (f 0).toBitVec (16 + i) (by omega), hlow (f 1).toBitVec (16 + i - 8) (by omega), h3]
  · simp [hlow (f 0).toBitVec (24 + i) (by omega), hlow (f 1).toBitVec (24 + i - 8) (by omega),
      hlow (f 2).toBitVec (24 + i - 16) (by omega)]

theorem wordByte_leWord (f : Nat → UInt8) (k : Nat) (hk : k < 4) :
    wordByte (leWord f) k = f k := by
  apply UInt8.eq_of_toBitVec_eq
  apply BitVec.eq_of_getLsbD_eq
  intro i hi
  simp only [wordByte, BitVec.getLsbD_extractLsb', hi, decide_true, Bool.true_and]
  exact getLsbD_leWord f k i hk hi

theorem leWord_wordByte {w : BitVec 32} {f : Nat → UInt8}
    (h : ∀ k < 4, f k = wordByte w k) : leWord f = w := by
  apply BitVec.eq_of_getLsbD_eq
  intro j hj
  have hbit := getLsbD_leWord f (j / 8) (j % 8) (by omega) (by omega)
  rw [Nat.div_add_mod, h _ (by omega)] at hbit
  rw [hbit]
  simp only [wordByte, BitVec.getLsbD_extractLsb', Nat.mod_lt j (by decide : 0 < 8), decide_true,
    Bool.true_and, Nat.div_add_mod]

end Plo
