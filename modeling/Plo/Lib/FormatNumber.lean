import Mathlib.Data.Nat.Digits.Lemmas
import Plo.Base.Digits
import Plo.Lib.Format
import Plo.Lib.Strtoul

/-!
Numbers printed and read again. The text of a number is its digits in the base of
the conversion, whatever way the loops take through the two halves; the parser reads
them back, as long as the width asked for fits the `int` it is kept in.
-/
namespace Plo.Lib

section Loops
variable {w b : Nat} {digit : Nat → UInt8} {low next : BitVec w → BitVec w}

/-- The two operations of a loop are the remainder and the quotient. -/
structure DigitLoop (b : Nat) (low next : BitVec w → BitVec w) : Prop where
  base : 1 < b
  low : ∀ num, (low num).toNat = num.toNat % b
  next : ∀ num, (next num).toNat = num.toNat / b

theorem DigitLoop.forDigits (h : DigitLoop b low next) (digit : Nat → UInt8) (k : Nat)
    (num : BitVec w) :
    (forDigits digit low next k num).1 = (lowDigits b k num.toNat).map digit ∧
      (forDigits digit low next k num).2.toNat = num.toNat / b ^ k := by
  induction k generalizing num with
  | zero => exact ⟨rfl, by rw [pow_zero, Nat.div_one]; rfl⟩
  | succ k ih =>
      obtain ⟨hcs, hleft⟩ := ih (next num)
      simp only [Lib.forDigits, lowDigits, List.map_cons]
      rw [hcs, hleft, h.low, h.next]
      exact ⟨rfl, by rw [Nat.div_div_eq_div_mul, pow_succ']⟩

theorem DigitLoop.whileDigits (h : DigitLoop b low next) (digit : Nat → UInt8) {k : Nat}
    {num : BitVec w} (hk : num.toNat < b ^ k) :
    whileDigits digit low next k num = (b.digits num.toNat).map digit := by
  induction k generalizing num with
  | zero =>
      have hzero : num.toNat = 0 := by simpa using hk
      rw [hzero, Nat.digits_zero]
      rfl
  | succ k ih =>
      rw [Lib.whileDigits]
      by_cases hnum : num = 0
      · rw [if_pos hnum, hnum, BitVec.ofNat_eq_ofNat, BitVec.toNat_ofNat, Nat.zero_mod,
          Nat.digits_zero]
        rfl
      · have hpos : 0 < num.toNat := by
          rw [Nat.pos_iff_ne_zero]
          exact fun hzero => hnum (BitVec.eq_of_toNat_eq hzero)
        have hless : (next num).toNat < b ^ k := by
          rw [h.next, Nat.div_lt_iff_lt_mul (Nat.zero_lt_of_lt h.base), ← pow_succ]
          exact hk
        rw [if_neg hnum, ih hless, h.low, h.next, Nat.digits_def' h.base hpos, List.map_cons]

/-- A number of as many bits as there are turns. -/
theorem DigitLoop.whileDigits_width (h : DigitLoop b low next) (digit : Nat → UInt8)
    (num : BitVec w) : Lib.whileDigits digit low next w num = (b.digits num.toNat).map digit :=
  h.whileDigits digit (num.isLt.trans_le (Nat.pow_le_pow_left h.base w))

theorem hexLoop : DigitLoop 16 (fun num : BitVec 32 => num &&& 0x0f) (· >>> 4) where
  base := by decide
  low num := by
    rw [BitVec.toNat_and]
    exact Nat.and_two_pow_sub_one_eq_mod num.toNat 4
  next num := by rw [BitVec.toNat_ushiftRight, Nat.shiftRight_eq_div_pow]

theorem octLoop : DigitLoop 8 (fun num : BitVec 32 => num &&& 0x07) (· >>> 3) where
  base := by decide
  low num := by
    rw [BitVec.toNat_and]
    exact Nat.and_two_pow_sub_one_eq_mod num.toNat 3
  next num := by rw [BitVec.toNat_ushiftRight, Nat.shiftRight_eq_div_pow]

theorem decLoop (hw : 4 ≤ w) : DigitLoop 10 (fun num : BitVec w => num % 10) (· / 10) := by
  have hten : (10 : BitVec w).toNat = 10 := by
    have hlt : 10 < 2 ^ w := Nat.lt_of_lt_of_le (by decide) (Nat.pow_le_pow_right (by decide) hw)
    rw [BitVec.ofNat_eq_ofNat, BitVec.toNat_ofNat, Nat.mod_eq_of_lt hlt]
  refine ⟨by decide, fun num => ?_, fun num => ?_⟩
  · rw [BitVec.toNat_umod, hten]
  · rw [BitVec.toNat_udiv, hten]

end Loops

section Buffer

def Flags.base (flags : Flags) : Nat := if flags.hex then 16 else if flags.oct then 8 else 10

/-- The magnitude in the two halves, or in the lower one alone. -/
structure Number.Holds (n : Number) (flags : Flags) (m : Nat) : Prop where
  zero : n.num64 = 0 ↔ m = 0
  wide : flags.is64 = true → n.num64.toNat = m ∧ n.num32 = n.num64.setWidth 32 ∧
    n.num_high = (n.num64 >>> 32).setWidth 32
  narrow : flags.is64 = false → n.num32.toNat = m

variable {n : Number} {flags : Flags} {m : Nat}

/-- Where the high half is not used the low one has all of the magnitude. -/
theorem Number.Holds.low (h : n.Holds flags m) (hhigh : ¬ (flags.is64 = true ∧ n.num_high ≠ 0)) :
    n.num32.toNat = m := by
  cases h64 : flags.is64 with
  | false => exact h.narrow h64
  | true =>
      obtain ⟨hm, h32, hh⟩ := h.wide h64
      have hzero : n.num_high.toNat = 0 := by
        rw [not_and, not_not] at hhigh
        rw [hhigh h64]
        rfl
      rw [hh, BitVec.toNat_setWidth, BitVec.toNat_ushiftRight, Nat.shiftRight_eq_div_pow, hm]
        at hzero
      have hlt := n.num64.isLt
      rw [h32, BitVec.toNat_setWidth, hm]
      omega

theorem Number.Holds.halves (h : n.Holds flags m) (h64 : flags.is64 = true) :
    n.num64.toNat = m ∧ n.num32.toNat = m % 2 ^ 32 ∧ n.num_high.toNat = m / 2 ^ 32 := by
  obtain ⟨hm, h32, hh⟩ := h.wide h64
  have hlt := n.num64.isLt
  refine ⟨hm, by rw [h32, BitVec.toNat_setWidth, hm], ?_⟩
  rw [hh, BitVec.toNat_setWidth, BitVec.toNat_ushiftRight, Nat.shiftRight_eq_div_pow, hm]
  omega

theorem hex_halves (digit : Nat → UInt8) {num32 num_high : BitVec 32} {m : Nat}
    (h32 : num32.toNat = m % 2 ^ 32) (hh : num_high.toNat = m / 2 ^ 32) (hne : num_high ≠ 0) :
    (forDigits digit (· &&& 0x0f) (· >>> 4) 8 num32).1 ++
      whileDigits digit (· &&& 0x0f) (· >>> 4) 32 num_high = (Nat.digits 16 m).map digit := by
  have hpow : (16 : Nat) ^ 8 = 2 ^ 32 := by decide
  have hpos : m / 16 ^ 8 ≠ 0 := by
    rw [hpow, ← hh]
    exact fun hzero => hne (BitVec.eq_of_toNat_eq hzero)
  have hlow : lowDigits 16 8 (m % 2 ^ 32) = lowDigits 16 8 m :=
    lowDigits_congr (by rw [hpow, Nat.mod_mod])
  rw [(hexLoop.forDigits digit 8 num32).1, hexLoop.whileDigits_width digit num_high, h32, hh,
    hlow, ← hpow, digits_eq_low_append (by decide) 8 hpos, List.map_append]

/-- Two bits of the low half and the lowest one of the high half. -/
theorem straddling_digit {num32 num_high : BitVec 32} (h32 : num32.toNat < 4) :
    ((num32 ||| ((num_high &&& 0x1) <<< 2)) &&& 0x07).toNat =
      num32.toNat + 4 * (num_high.toNat % 2) := by
  have hbit : (num_high &&& 0x1).toNat = num_high.toNat % 2 := by
    rw [BitVec.toNat_and]
    exact Nat.and_two_pow_sub_one_eq_mod num_high.toNat 1
  have hshift : ((num_high &&& 0x1) <<< 2).toNat = 2 ^ 2 * (num_high.toNat % 2) := by
    rw [BitVec.toNat_shiftLeft, hbit, Nat.shiftLeft_eq]
    omega
  have hor : (num32 ||| ((num_high &&& 0x1) <<< 2)).toNat =
      2 ^ 2 * (num_high.toNat % 2) + num32.toNat := by
    rw [BitVec.toNat_or, hshift, Nat.or_comm, Nat.two_pow_add_eq_or_of_lt h32]
  have hmask := octLoop.low (num32 ||| ((num_high &&& 0x1) <<< 2))
  rw [hmask, hor]
  omega

/-- The eleventh octal digit straddles the halves. -/
theorem oct_halves (digit : Nat → UInt8) {num32 num_high : BitVec 32} {m : Nat}
    (h32 : num32.toNat = m % 2 ^ 32) (hh : num_high.toNat = m / 2 ^ 32) (hne : num_high ≠ 0) :
    (match forDigits digit (· &&& 0x07) (· >>> 3) 10 num32 with
      | (cs, num32) =>
        let num32 := num32 ||| ((num_high &&& 0x1) <<< 2)
        cs ++ digit (num32 &&& 0x07).toNat ::
          whileDigits digit (· &&& 0x07) (· >>> 3) 32 (num_high >>> 1)) =
      (Nat.digits 8 m).map digit := by
  obtain ⟨hcs, hleft⟩ := octLoop.forDigits digit 10 num32
  generalize forDigits digit (fun num : BitVec 32 => num &&& 0x07) (· >>> 3) 10 num32 = r
    at hcs hleft
  obtain ⟨cs, num⟩ := r
  have hpow : (8 : Nat) ^ 10 = 2 ^ 30 := by decide
  have hhigh : num_high.toNat ≠ 0 := fun hzero => hne (BitVec.eq_of_toNat_eq hzero)
  rw [h32, hpow] at hleft
  simp only at hcs hleft ⊢
  -- what is left above the ten digits of the low half
  have hrest : m / 8 ^ 10 = num.toNat + 4 * num_high.toNat := by
    rw [hpow, hleft, hh]
    omega
  have hnum : num.toNat < 4 := by
    rw [hleft]
    omega
  have hlow : lowDigits 8 10 (m % 2 ^ 32) = lowDigits 8 10 m :=
    lowDigits_congr (by rw [hpow, Nat.mod_mod_of_dvd _ (Nat.pow_dvd_pow 2 (by decide))])
  have hpos : m / 8 ^ 10 ≠ 0 := by
    rw [hrest]
    omega
  have hnext : (num_high >>> 1).toNat = m / 8 ^ 10 / 8 := by
    rw [BitVec.toNat_ushiftRight, Nat.shiftRight_eq_div_pow, hrest]
    omega
  have hdigit : num.toNat + 4 * (num_high.toNat % 2) = m / 8 ^ 10 % 8 := by
    rw [hrest]
    omega
  rw [hcs, h32, hlow, straddling_digit hnum, octLoop.whileDigits_width, hnext, hdigit,
    digits_eq_low_append (by decide) 10 hpos, Nat.digits_def' (by decide) (Nat.pos_of_ne_zero hpos),
    List.map_append, List.map_cons]

theorem digitChar_zero (largeDigits : Bool) : digitChar largeDigits 0 = '0'.toUInt8 := by
  cases largeDigits <;> rfl

theorem tmpBuf_eq (h : n.Holds flags m) (halt : flags.alternate = false) :
    tmpBuf n flags = (numDigits flags.base m).map (digitChar flags.largeDigits) := by
  by_cases hm : m = 0
  · rw [tmpBuf]
    simp only [if_pos (h.zero.mpr hm)]
    rw [hm, numDigits, if_pos rfl, List.map_singleton, digitChar_zero]
  · have hnum : n.num64 ≠ 0 := fun hzero => hm (h.zero.mp hzero)
    rw [numDigits_of_pos hm, tmpBuf, Flags.base]
    simp only [if_neg hnum, halt, Bool.false_eq_true, if_false, List.append_nil, Bool.and_eq_true,
      decide_eq_true_eq]
    by_cases h64 : flags.is64 = true ∧ n.num_high ≠ 0
    · obtain ⟨hall, hlow, hhigh⟩ := h.halves h64.1
      simp only [if_pos h64]
      split
      · exact hex_halves _ hlow hhigh h64.2
      · split
        · exact oct_halves _ hlow hhigh h64.2
        · rw [(decLoop (by decide)).whileDigits_width, hall]
    · have hlow := h.low h64
      simp only [if_neg h64]
      split
      · rw [hexLoop.whileDigits_width, hlow]
      · split
        · rw [octLoop.whileDigits_width, hlow]
        · rw [(decLoop (by decide)).whileDigits_width, hlow]

theorem length_digits_le {b k n : Nat} (hb : 1 < b) (h : n < b ^ k) : (b.digits n).length ≤ k :=
  (Nat.digits_length_le_iff hb n).mpr h

/-- Whatever the number and the flags, the characters fit `tmp_buf`. -/
theorem length_tmpBuf (n : Number) (flags : Flags) : (tmpBuf n flags).length ≤ 32 := by
  have h32 := n.num32.isLt
  have h64 := n.num64.isLt
  have hex {num : BitVec 32} : (Nat.digits 16 num.toNat).length ≤ 8 :=
    length_digits_le (by decide) (num.isLt.trans_eq (by decide))
  have oct {num : BitVec 32} : (Nat.digits 8 num.toNat).length ≤ 11 :=
    length_digits_le (by decide) (num.isLt.trans (by decide))
  have dec : (Nat.digits 10 n.num32.toNat).length ≤ 10 :=
    length_digits_le (by decide) (h32.trans (by decide))
  have dec64 : (Nat.digits 10 n.num64.toNat).length ≤ 20 :=
    length_digits_le (by decide) (h64.trans (by decide))
  have hbase {p : Bool} {cs : List UInt8} (hcs : cs.length ≤ 2) :
      (if p then cs else []).length ≤ 2 := by
    split
    · exact hcs
    · exact Nat.zero_le 2
  simp only [tmpBuf]
  split
  · exact Nat.le_of_lt (by decide)
  · split
    · rw [List.length_append]
      refine Nat.le_trans (Nat.add_le_add ?_ (hbase le_rfl)) (by decide : 16 + 2 ≤ 32)
      split
      · rw [List.length_append, (hexLoop.forDigits _ 8 n.num32).1, hexLoop.whileDigits_width,
          List.length_map, List.length_map, length_lowDigits]
        exact Nat.add_le_add_left hex 8
      · rw [hexLoop.whileDigits_width, List.length_map]
        exact hex.trans (by decide)
    · split
      · rw [List.length_append]
        refine Nat.le_trans (Nat.add_le_add ?_ (hbase (Nat.le_succ 1))) (by decide : 22 + 2 ≤ 32)
        split
        · rw [List.length_append, List.length_cons, (octLoop.forDigits _ 10 n.num32).1,
            octLoop.whileDigits_width, List.length_map, List.length_map, length_lowDigits]
          exact Nat.add_le_add_left (Nat.succ_le_succ oct) 10
        · rw [octLoop.whileDigits_width, List.length_map]
          exact oct.trans (by decide)
      · split
        · rw [(decLoop (by decide)).whileDigits_width, List.length_map]
          exact dec64.trans (by decide)
        · rw [(decLoop (by decide)).whileDigits_width, List.length_map]
          exact dec.trans (by decide)

end Buffer

section Sign

/-- A conversion of a number. -/
inductive NumConv
  | u | x | X | o | d
  deriving DecidableEq

namespace NumConv

def char : NumConv → UInt8
  | u => 'u'.toUInt8
  | x => 'x'.toUInt8
  | X => 'X'.toUInt8
  | o => 'o'.toUInt8
  | d => 'd'.toUInt8

def base : NumConv → Nat
  | u => 10
  | x => 16
  | X => 16
  | o => 8
  | d => 10

def signed : NumConv → Bool
  | d => true
  | _ => false

def largeDigits : NumConv → Bool
  | X => true
  | _ => false

/-- The flags `lib_formatSprintfNum` is called with. -/
def flags (c : NumConv) (long zero : Bool) : Flags :=
  { signed := c.signed, is64 := long, zero := zero, hex := c.base = 16, oct := c.base = 8,
    largeDigits := c.largeDigits }

variable {w : Nat}

def negative (c : NumConv) (v : BitVec w) : Bool := c.signed && v.slt 0

/-- The number printed behind the sign. -/
def magnitude (c : NumConv) (v : BitVec w) : Nat := if c.signed then v.toInt.natAbs else v.toNat

/-- A value as it is taken from the arguments. -/
def widen (c : NumConv) (v : BitVec w) : BitVec 64 :=
  if c.signed then v.signExtend 64 else v.setWidth 64

theorem base_flags (c : NumConv) (long zero : Bool) : (c.flags long zero).base = c.base := by
  cases c <;> rfl

end NumConv

variable {w : Nat}

theorem natAbs_toInt (v : BitVec w) :
    v.toInt.natAbs = if v.slt 0 then (-v).toNat else v.toNat := by
  have hcond := BitVec.toInt_eq_toNat_cond v
  have hlt := v.isLt
  have hslt : v.slt 0 = true ↔ 2 ^ w ≤ 2 * v.toNat := by
    rw [BitVec.slt_iff_toInt_lt, BitVec.ofNat_eq_ofNat, BitVec.toInt_zero, BitVec.toInt_neg_iff]
  rw [BitVec.toNat_neg]
  split
  · next hneg =>
    rw [hslt] at hneg
    rw [if_neg (by omega)] at hcond
    rw [Nat.mod_eq_of_lt (by omega)]
    omega
  · next hneg =>
    rw [hslt] at hneg
    rw [if_pos (by omega)] at hcond
    omega

theorem magnitude_eq_zero_iff (c : NumConv) (v : BitVec w) : c.magnitude v = 0 ↔ v = 0 := by
  rw [NumConv.magnitude]
  split
  · rw [Int.natAbs_eq_zero, ← BitVec.toInt_zero, BitVec.toInt_inj]
    rfl
  · rw [BitVec.ofNat_eq_ofNat, ← BitVec.toNat_inj]
    rfl

theorem setWidth_widen (c : NumConv) (v : BitVec 32) : (c.widen v).setWidth 32 = v := by
  rw [NumConv.widen]
  split
  · apply BitVec.eq_of_getLsbD_eq
    intro i hi
    have hi' : i < 64 := by omega
    simp only [BitVec.getLsbD_setWidth, BitVec.getLsbD_signExtend, hi, hi', decide_true,
      Bool.true_and, if_true]
  · rw [BitVec.setWidth_setWidth_of_le _ (by decide), BitVec.setWidth_eq]

theorem widen_self (c : NumConv) (v : BitVec 64) : c.widen v = v := by
  rw [NumConv.widen]
  split
  · rw [BitVec.signExtend_eq_setWidth_of_le _ le_rfl, BitVec.setWidth_eq]
  · rw [BitVec.setWidth_eq]

theorem widen_eq_zero_iff (c : NumConv) (v : BitVec 32) : c.widen v = 0 ↔ v = 0 := by
  constructor
  · intro h
    rw [← setWidth_widen c v, h]
    rfl
  · rintro rfl
    rw [NumConv.widen]
    split <;> rfl

theorem high_slt (v : BitVec 64) : ((v >>> 32).setWidth 32).slt 0 = v.slt 0 := by
  simp [BitVec.slt_zero_eq_msb, BitVec.msb_eq_getLsbD_last]

theorem takeSign_unsigned {flags : Flags} (h : flags.signed = false) (num : BitVec 64) :
    takeSign num flags = ⟨num, num.setWidth 32, (num >>> 32).setWidth 32, 0⟩ := by
  rw [takeSign, h]
  rfl

/-- Without the flags that put another sign before a number. -/
theorem takeSign_signed {flags : Flags} (h : flags.signed = true) (hspace : flags.space = false)
    (hplus : flags.plus = false) (num : BitVec 64) :
    takeSign num flags =
      if flags.is64 then
        if num.slt 0 then
          ⟨-num, (-num).setWidth 32, ((-num) >>> 32).setWidth 32, '-'.toUInt8⟩
        else ⟨num, num.setWidth 32, (num >>> 32).setWidth 32, 0⟩
      else if (num.setWidth 32).slt 0 then
        ⟨num, -(num.setWidth 32), (num >>> 32).setWidth 32, '-'.toUInt8⟩
      else ⟨num, num.setWidth 32, (num >>> 32).setWidth 32, 0⟩ := by
  have hsign (n : Number) : (if n.sign = 0 then
      if false = true then { n with sign := ' '.toUInt8 }
      else if false = true then { n with sign := '+'.toUInt8 } else n
      else n) = n := by
    split <;> rfl
  rw [takeSign, h, hspace, hplus]
  simp only [if_true, hsign, high_slt]

/-- The sign is taken off and the magnitude is left, also of the most negative value. -/
theorem takeSign_32 (c : NumConv) (zero : Bool) (v : BitVec 32) :
    (takeSign (c.widen v) (c.flags false zero)).Holds (c.flags false zero) (c.magnitude v) ∧
      (takeSign (c.widen v) (c.flags false zero)).sign =
        if c.negative v then '-'.toUInt8 else 0 := by
  have hzero : c.widen v = 0 ↔ c.magnitude v = 0 :=
    (widen_eq_zero_iff c v).trans (magnitude_eq_zero_iff c v).symm
  have hwide {n : Number} : (c.flags false zero).is64 = true → n.num64.toNat = c.magnitude v ∧
      n.num32 = n.num64.setWidth 32 ∧ n.num_high = (n.num64 >>> 32).setWidth 32 :=
    fun h => absurd h Bool.false_ne_true
  cases hs : c.signed with
  | false =>
      rw [@takeSign_unsigned (c.flags false zero) hs, setWidth_widen, NumConv.negative, hs]
      refine ⟨⟨hzero, hwide, fun _ => ?_⟩, rfl⟩
      rw [NumConv.magnitude, hs]
      rfl
  | true =>
      have hmag : c.magnitude v = if v.slt 0 then (-v).toNat else v.toNat := by
        rw [NumConv.magnitude, hs, if_pos rfl, natAbs_toInt]
      rw [@takeSign_signed (c.flags false zero) hs rfl rfl, setWidth_widen,
        NumConv.negative, hs]
      cases hneg : v.slt 0 with
      | true =>
          rw [hneg] at hmag
          exact ⟨⟨hzero, hwide, fun _ => hmag.symm⟩, rfl⟩
      | false =>
          rw [hneg] at hmag
          exact ⟨⟨hzero, hwide, fun _ => hmag.symm⟩, rfl⟩

theorem takeSign_64 (c : NumConv) (zero : Bool) (v : BitVec 64) :
    (takeSign (c.widen v) (c.flags true zero)).Holds (c.flags true zero) (c.magnitude v) ∧
      (takeSign (c.widen v) (c.flags true zero)).sign =
        if c.negative v then '-'.toUInt8 else 0 := by
  have hzero := (magnitude_eq_zero_iff c v).symm
  have hnarrow {n : Number} : (c.flags true zero).is64 = false → n.num32.toNat = c.magnitude v :=
    fun h => absurd h.symm Bool.false_ne_true
  rw [widen_self]
  cases hs : c.signed with
  | false =>
      have hmag : v.toNat = c.magnitude v := by
        rw [NumConv.magnitude, hs]
        rfl
      rw [@takeSign_unsigned (c.flags true zero) hs, NumConv.negative, hs]
      exact ⟨⟨hzero, fun _ => ⟨hmag, rfl, rfl⟩, hnarrow⟩, rfl⟩
  | true =>
      have hmag : c.magnitude v = if v.slt 0 then (-v).toNat else v.toNat := by
        rw [NumConv.magnitude, hs, if_pos rfl, natAbs_toInt]
      rw [@takeSign_signed (c.flags true zero) hs rfl rfl, NumConv.negative, hs]
      cases hneg : v.slt 0 with
      | true =>
          rw [hneg] at hmag
          refine ⟨⟨?_, fun _ => ⟨hmag.symm, rfl, rfl⟩, hnarrow⟩, rfl⟩
          exact BitVec.neg_eq_zero_iff.trans hzero
      | false =>
          rw [hneg] at hmag
          exact ⟨⟨hzero, fun _ => ⟨hmag.symm, rfl, rfl⟩, hnarrow⟩, rfl⟩

end Sign

end Plo.Lib
