import Mathlib.Logic.Function.Basic
import Plo.Base.Bytes

/-!
A memory of bytes with addresses of `w` bits, and the words of the same width in it. A
word that is stored is loaded again from its address, and from an address apart from it
what was there before.
-/
namespace Plo
variable {w : Nat}

/-- The order of the bytes in a word, which is made of whole bytes. -/
structure Host (w : Nat) where
  endian : Endian
  bytes : 8 ∣ w

/-- The byte of an `n`-byte word that lies `k` bytes from its address, counted from the least
significant one. -/
def Endian.lane (e : Endian) (n k : Nat) : Nat :=
  match e with
  | .little => k
  | .big => n - 1 - k

theorem Endian.lane_lt (e : Endian) {n k : Nat} (hk : k < n) : e.lane n k < n := by
  cases e with
  | little => exact hk
  | big => simp only [lane]; omega

theorem Endian.lane_lane (e : Endian) {n k : Nat} (hk : k < n) : e.lane n (e.lane n k) = k := by
  cases e with
  | little => rfl
  | big => simp only [lane]; omega

namespace Host
variable (h : Host w) (mem : BitVec w → UInt8) (a b v : BitVec w)

/-- Bit `i` of the word at `a`. -/
def loadBit (i : Nat) : Bool :=
  (mem (a + BitVec.ofNat w (h.endian.lane (w / 8) (i / 8)))).toBitVec.getLsbD (i % 8)

def load : BitVec w := (BitVec.iunfoldr (fun i (_ : Unit) => ((), h.loadBit mem a i)) ()).2

def store : BitVec w → UInt8 := fun b =>
  let k := (b - a).toNat
  if k < w / 8 then ⟨v.extractLsb' (8 * h.endian.lane (w / 8) k) 8⟩ else mem b

end Host

/-- The words at the two addresses have no byte in common. -/
def WordsApart (a b : BitVec w) : Prop :=
  ∀ i < w / 8, ∀ j < w / 8, a + BitVec.ofNat w i ≠ b + BitVec.ofNat w j

namespace Host
variable (h : Host w) (mem : BitVec w → UInt8) {a b : BitVec w} (v : BitVec w)

theorem getLsbD_load {i : Nat} (hi : i < w) : (h.load mem a).getLsbD i = h.loadBit mem a i :=
  BitVec.iunfoldr_getLsbD (fun _ => ()) ⟨i, hi⟩ (fun _ => rfl)

@[simp] theorem load_store_self : h.load (h.store mem a v) a = v := by
  refine BitVec.eq_of_getLsbD_eq ?_
  intro i hi
  obtain ⟨n, hn⟩ := h.bytes
  have hbyte : i / 8 < w / 8 := by omega
  have hlane := h.endian.lane_lt hbyte
  have hsmall : h.endian.lane (w / 8) (i / 8) < 2 ^ w :=
    Nat.lt_of_lt_of_le hlane (Nat.le_trans (Nat.div_le_self w 8) Nat.lt_two_pow_self.le)
  have hsub (x : BitVec w) : a + x - a = x := by rw [BitVec.add_comm, BitVec.add_sub_cancel]
  have hbit : 8 * (i / 8) + i % 8 = i := Nat.div_add_mod i 8
  rw [h.getLsbD_load _ hi]
  simp only [loadBit, store, hsub, BitVec.toNat_ofNat, Nat.mod_eq_of_lt hsmall, if_pos hlane,
    h.endian.lane_lane hbyte, BitVec.getLsbD_extractLsb', Nat.mod_lt i (by decide : 0 < 8),
    decide_true, Bool.true_and, hbit]

/-- A load reads the bytes of its word only. -/
theorem load_congr {mem mem' : BitVec w → UInt8}
    (hmem : ∀ k < w / 8, mem (a + BitVec.ofNat w k) = mem' (a + BitVec.ofNat w k)) :
    h.load mem a = h.load mem' a := by
  refine BitVec.eq_of_getLsbD_eq ?_
  intro i hi
  obtain ⟨n, hn⟩ := h.bytes
  have hbyte : i / 8 < w / 8 := by omega
  rw [h.getLsbD_load _ hi, h.getLsbD_load _ hi]
  simp only [loadBit, hmem _ (h.endian.lane_lt hbyte)]

theorem load_store_apart (hab : WordsApart a b) : h.load (h.store mem a v) b = h.load mem b := by
  refine h.load_congr ?_
  intro k hk
  refine if_neg ?_
  intro hin
  refine hab _ hin _ hk ?_
  rw [BitVec.ofNat_toNat, BitVec.setWidth_eq, BitVec.add_comm, BitVec.sub_add_cancel]

theorem load_update {c : UInt8} (hb : ¬(b - a).toNat < w / 8) :
    h.load (Function.update mem b c) a = h.load mem a := by
  refine h.load_congr ?_
  intro k hk
  refine Function.update_of_ne ?_ c mem
  rintro rfl
  rw [BitVec.add_comm, BitVec.add_sub_cancel, BitVec.toNat_ofNat] at hb
  exact hb (Nat.lt_of_le_of_lt (Nat.mod_le k (2 ^ w)) hk)

end Host

end Plo
