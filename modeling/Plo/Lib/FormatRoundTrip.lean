import Plo.Lib.FormatNumber
import Plo.Lib.FormatSpec

/-!
The text of a number and what the parsers make of it. Blanks, a sign, zeros and
digits follow one another; to the parser the zeros are digits like the others, and
none of the characters is taken for the prefix of a base.
-/
namespace Plo.Lib

section Text

/-- The padding as the `int` it is kept in, for a width that fits it. -/
theorem padding_eq {width len : Nat} (hwidth : width < 2 ^ 31) (hlen : len ≤ 32) (sign : Bool) :
    let pad_len := BitVec.ofNat 32 width - BitVec.ofNat 32 len -
      BitVec.ofNat 32 (if sign then 1 else 0)
    (if pad_len.toInt > 0 then pad_len.toNat else 0) =
      width - (len + if sign then 1 else 0) := by
  intro pad_len
  have hcond := BitVec.toInt_eq_toNat_cond pad_len
  have hval : pad_len.toNat =
      (width + 2 * 2 ^ 32 - len - if sign then 1 else 0) % 2 ^ 32 := by
    simp only [pad_len, BitVec.toNat_sub, BitVec.toNat_ofNat]
    cases sign <;> simp only [Bool.false_eq_true, if_true, if_false] <;> omega
  cases sign with
  | false =>
      simp only [Bool.false_eq_true, if_false] at hval ⊢
      split at hcond <;> split <;> omega
  | true =>
      simp only [if_true] at hval ⊢
      split at hcond <;> split <;> omega

/-- The characters behind the sign, as digits. -/
def padDigits (c : NumConv) (zero : Bool) (pad m : Nat) : List Nat :=
  List.replicate (if zero then pad else 0) 0 ++ (numDigits c.base m).reverse

/-- Blanks, sign, zeros and digits. -/
def numText (c : NumConv) (zero negative : Bool) (pad m : Nat) : List UInt8 :=
  List.replicate (if zero then 0 else pad) ' '.toUInt8 ++
    ((if negative then ['-'.toUInt8] else []) ++
      (padDigits c zero pad m).map (digitChar c.largeDigits))

/-- The length of a number without padding. -/
def numLen (c : NumConv) (negative : Bool) (m : Nat) : Nat :=
  (numDigits c.base m).length + if negative then 1 else 0

theorem length_numText (c : NumConv) (zero negative : Bool) (pad m : Nat) :
    (numText c zero negative pad m).length = pad + numLen c negative m := by
  have hsign : (if negative then ['-'.toUInt8] else []).length = if negative then 1 else 0 := by
    cases negative <;> rfl
  simp only [numText, padDigits, numLen, List.length_append, List.length_map, List.length_reverse,
    List.length_replicate, hsign]
  cases zero with
  | false =>
      simp only [Bool.false_eq_true, if_false]
      omega
  | true =>
      simp only [if_true]
      omega

theorem sprintfNum_eq (c : NumConv) (long zero : Bool) {num : BitVec 64} {m width : Nat}
    {negative : Bool} (hholds : (takeSign num (c.flags long zero)).Holds (c.flags long zero) m)
    (hsign : (takeSign num (c.flags long zero)).sign = if negative then '-'.toUInt8 else 0)
    (hwidth : width < 2 ^ 31) :
    sprintfNum num (c.flags long zero) (BitVec.ofNat 32 width) =
      numText c zero negative (width - numLen c negative m) m := by
  have htmp : tmpBuf (takeSign num (c.flags long zero)) (c.flags long zero) =
      (numDigits c.base m).map (digitChar c.largeDigits) := by
    have heq := tmpBuf_eq hholds rfl
    rwa [NumConv.base_flags] at heq
  have hlen : (numDigits c.base m).length ≤ 32 := by
    have hle := length_tmpBuf (takeSign num (c.flags long zero)) (c.flags long zero)
    rwa [htmp, List.length_map] at hle
  have hsigns : (if (takeSign num (c.flags long zero)).sign ≠ 0 then
      [(takeSign num (c.flags long zero)).sign] else []) =
      if negative then ['-'.toUInt8] else [] := by
    rw [hsign]
    cases negative <;> rfl
  have hone : (if negative then ['-'.toUInt8] else []).length = if negative then 1 else 0 := by
    cases negative <;> rfl
  have hpad := padding_eq hwidth hlen negative
  have hnull : ¬ ((c.flags long zero).nullmark = true ∧ num = 0) :=
    fun h => Bool.false_ne_true h.1
  have hzero : (c.flags long zero).zero = zero := rfl
  simp only [sprintfNum, if_neg hnull, htmp, hsigns, List.length_map, hone, hzero, numText,
    padDigits, numLen, List.nil_append, List.map_append, List.map_replicate, List.map_reverse,
    digitChar_zero, List.append_assoc]
  simp only at hpad
  rw [hpad]

end Text

section Read
variable {w base : Nat} {largeDigits : Bool}

theorem digitChar_facts : ∀ largeDigits, ∀ d < 16,
    (isdigit (digitChar largeDigits d) || isalpha (digitChar largeDigits d)) = true ∧
      digitValue (digitChar largeDigits d) = d ∧
      digitChar largeDigits d ||| 0x20 ≠ 0x78 ∧ digitChar largeDigits d ≠ 0 ∧
      digitChar largeDigits d ≠ '-'.toUInt8 ∧ digitChar largeDigits d ≠ ' '.toUInt8 := by
  decide

theorem strtoulDigits_map (hbase : base ≤ 16) {ds : List Nat} (hds : ∀ d ∈ ds, d < base)
    (v : Nat) :
    strtoulDigits base (BitVec.ofNat w v) (ds.map (digitChar largeDigits)) =
      (BitVec.ofNat w (ds.foldl (fun v d => v * base + d) v), []) := by
  induction ds generalizing v with
  | nil => rfl
  | cons d ds ih =>
      obtain ⟨hd, hds⟩ := List.forall_mem_cons.mp hds
      obtain ⟨hchar, hvalue, -⟩ := digitChar_facts largeDigits d (hd.trans_le hbase)
      rw [List.map_cons, strtoulDigits, if_pos hchar, hvalue, if_neg (Nat.not_le.mpr hd),
        ← BitVec.ofNat_mul, ← BitVec.ofNat_add, ih hds]
      rfl

/-- Digits are read to their end; none of them is the letter of a prefix. -/
theorem strtoul_digits (hbase : base = 8 ∨ base = 10 ∨ base = 16) {ds : List Nat}
    (hds : ∀ d ∈ ds, d < base) {s : CString}
    (hs : s.bytes = ds.map (digitChar largeDigits)) :
    (strtoul s base : BitVec w × List UInt8) = (BitVec.ofNat w (readDigits base ds), []) := by
  have hle : base ≤ 16 := by omega
  have hx : ¬ ((base = 16 ∨ base = 0) ∧ s.bytes.getD 0 0 = 0x30 ∧
      s.bytes.getD 1 0 ||| 0x20 = 0x78) := by
    rintro ⟨-, -, hx⟩
    rw [hs, List.getD_eq_getElem?_getD, List.getElem?_map] at hx
    cases hd : ds[1]? with
    | none =>
        rw [hd, Option.map_none] at hx
        exact absurd hx (by decide)
    | some d =>
        rw [hd] at hx
        have hlt := hds d (List.mem_of_getElem? hd)
        exact (digitChar_facts largeDigits d (hlt.trans_le hle)).2.2.1 hx
  have hne : base ≠ 0 := by omega
  rw [strtoul, if_neg hx, if_neg (fun h => hne h.1), if_neg hne, hs]
  exact strtoulDigits_map hle hds 0

/-- With a sign before the digits or not. -/
theorem strtol_digits (hbase : base = 8 ∨ base = 10 ∨ base = 16) {ds : List Nat}
    (hds : ∀ d ∈ ds, d < base) (negative : Bool) {s : CString}
    (hs : s.bytes = (if negative then ['-'.toUInt8] else []) ++ ds.map (digitChar largeDigits)) :
    (strtol s base : BitVec w × List UInt8) =
      (if negative then -BitVec.ofNat w (readDigits base ds)
        else BitVec.ofNat w (readDigits base ds), []) := by
  cases negative with
  | true =>
      have hhead : s.bytes.head? = some '-'.toUInt8 := by
        rw [hs]
        rfl
      have htail : s.bytes.tail = ds.map (digitChar largeDigits) := by
        rw [hs]
        rfl
      rw [strtol, if_pos hhead]
      simp only [strtoul_digits (s := ⟨s.bytes.tail, _⟩) hbase hds htail, if_true]
  | false =>
      have hhead : s.bytes.head? ≠ some '-'.toUInt8 := by
        rw [hs, if_neg Bool.false_ne_true, List.nil_append, List.head?_map]
        cases hd : ds.head? with
        | none => exact (Option.some_ne_none _).symm
        | some d =>
            have hlt := hds d (List.mem_of_mem_head? hd)
            exact fun h => (digitChar_facts largeDigits d (by omega)).2.2.2.2.1
              (Option.some.inj h)
      rw [strtol, if_neg hhead, strtoul_digits hbase hds hs, if_neg Bool.false_ne_true]

end Read

section Spec

namespace NumConv

/-- The length and the conversion character. -/
def tail (c : NumConv) (long : Bool) : List UInt8 :=
  (if long then ['l'.toUInt8, 'l'.toUInt8] else []) ++ [c.char]

/-- What follows the `%`. -/
def specText (c : NumConv) (long zero : Bool) (width : Nat) : List UInt8 :=
  (if zero then ['0'.toUInt8] else []) ++ (widthText width ++ c.tail long)

end NumConv

variable {c : NumConv} {long zero wide : Bool}

theorem afterWidth_tail (c : NumConv) (long : Bool) : AfterWidth (c.tail long) := by
  refine ⟨?_, fun flags => ?_, fun n => ?_, ?_, ?_⟩
  · cases c <;> cases long <;> exact List.cons_ne_nil _ _
  all_goals cases c <;> cases long <;> rfl

theorem formatText_noNul (c : NumConv) (long zero : Bool) (width : Nat) :
    0 ∉ '%'.toUInt8 :: c.specText long zero width := by
  have htail : 0 ∉ c.tail long := by cases c <;> cases long <;> decide
  have hzero : 0 ∉ (if zero then ['0'.toUInt8] else []) := by cases zero <;> decide
  simp only [NumConv.specText, List.mem_cons, List.mem_append, not_or]
  exact ⟨by decide, hzero, widthText_noNul width, htail⟩

def NumConv.format (c : NumConv) (long zero : Bool) (width : Nat) : CString :=
  ⟨'%'.toUInt8 :: c.specText long zero width, formatText_noNul c long zero width⟩

theorem parseSpec_number (args : List Arg) (width : Nat) :
    parseSpec wide (c.specText long zero width) args =
      some (⟨{ zero := zero, is64 := long }, BitVec.ofNat 32 width, -1⟩, [c.char], args) := by
  have hstart (rest : List UInt8) : flagChars {} ((if zero then ['0'.toUInt8] else []) ++ rest) =
      flagChars { zero := zero } rest := by
    cases zero <;> rfl
  have hlength : lengthChars wide { zero := zero } (c.tail long) =
      ({ zero := zero, is64 := long }, [c.char]) := by
    cases c <;> cases long <;> rfl
  rw [NumConv.specText, parseSpec_width (afterWidth_tail c long) hstart rfl, hlength]

theorem convert_number_32 (v : BitVec 32) (width : BitVec 32) :
    convert wide ⟨{ zero := zero, is64 := false }, width, -1⟩ c.char [.w32 v] =
      some (sprintfNum (c.widen v) (c.flags false zero) width, []) := by
  cases c <;> rfl

theorem convert_number_64 (v : BitVec 64) (width : BitVec 32) :
    convert wide ⟨{ zero := zero, is64 := true }, width, -1⟩ c.char [.w64 v] =
      some (sprintfNum (c.widen v) (c.flags true zero) width, []) := by
  rw [widen_self]
  cases c <;> rfl

theorem formatParse_32 (width : Nat) (v : BitVec 32) :
    formatParse wide (c.format false zero width) [.w32 v] =
      some (sprintfNum (c.widen v) (c.flags false zero) (BitVec.ofNat 32 width)) :=
  formatParse_one rfl (parseSpec_number _ width) (convert_number_32 v _)

theorem formatParse_64 (width : Nat) (v : BitVec 64) :
    formatParse wide (c.format true zero width) [.w64 v] =
      some (sprintfNum (c.widen v) (c.flags true zero) (BitVec.ofNat 32 width)) :=
  formatParse_one rfl (parseSpec_number _ width) (convert_number_64 v _)

end Spec

section RoundTrip
variable {w : Nat} {c : NumConv}

/-- `lib_strtol` for the signed conversion, else `lib_strtoul`, in the base of the
conversion. -/
def NumConv.parse (c : NumConv) (s : CString) : BitVec w × List UInt8 :=
  if c.signed then strtol s c.base else strtoul s c.base

/-- The text of a value printed in a field, and what the parser makes of it once the
blanks before it are taken off: the value, and nothing left. -/
structure ReadBack (c : NumConv) (width : Nat) (v : BitVec w) (text : List UInt8) : Prop where
  length : text.length = max width (numLen c (c.negative v) (c.magnitude v))
  noNul : 0 ∉ text
  parsed : c.parse (.ofBuffer (text.dropWhile (· = ' '.toUInt8))) = (v, [])

theorem padDigits_lt (c : NumConv) (zero : Bool) (pad m : Nat) :
    ∀ d ∈ padDigits c zero pad m, d < c.base := by
  have hbase : 1 < c.base := by cases c <;> decide
  intro d hd
  rcases List.mem_append.mp hd with hd | hd
  · rw [List.eq_of_mem_replicate hd]
    exact Nat.zero_lt_of_lt hbase
  · exact numDigits_lt hbase (List.mem_reverse.mp hd)

/-- No character behind the blanks is a NUL or another blank. -/
theorem body_char (c : NumConv) (zero negative : Bool) (pad m : Nat) :
    ∀ ch ∈ (if negative then ['-'.toUInt8] else []) ++
      (padDigits c zero pad m).map (digitChar c.largeDigits), ch ≠ 0 ∧ ch ≠ ' '.toUInt8 := by
  have hbase : c.base ≤ 16 := by cases c <;> decide
  intro ch hch
  rcases List.mem_append.mp hch with hsign | hdigit
  · cases negative with
    | false => exact absurd hsign List.not_mem_nil
    | true =>
        rw [List.mem_singleton.mp hsign]
        decide
  · obtain ⟨d, hd, rfl⟩ := List.mem_map.mp hdigit
    obtain ⟨-, -, -, hnul, -, hblank⟩ := digitChar_facts c.largeDigits d
      ((padDigits_lt c zero pad m d hd).trans_le hbase)
    exact ⟨hnul, hblank⟩

theorem dropWhile_blanks {k : Nat} {body : List UInt8} (hbody : ∀ ch ∈ body, ch ≠ ' '.toUInt8) :
    (List.replicate k ' '.toUInt8 ++ body).dropWhile (· = ' '.toUInt8) = body := by
  induction k with
  | zero =>
      rw [List.replicate_zero, List.nil_append]
      cases body with
      | nil => rfl
      | cons ch body =>
          have hch : ¬ (ch = ' '.toUInt8) := hbody ch List.mem_cons_self
          rw [List.dropWhile_cons, decide_eq_false hch, if_neg Bool.false_ne_true]
  | succ k ih =>
      rw [List.replicate_succ, List.cons_append, List.dropWhile_cons, decide_eq_true rfl,
        if_pos rfl]
      exact ih

theorem ofBuffer_bytes {buf : List UInt8} (h : 0 ∉ buf) : (CString.ofBuffer buf).bytes = buf := by
  rw [CString.ofBuffer]
  refine List.takeWhile_eq_self_iff.mpr fun ch hch => decide_eq_true ?_
  exact fun hzero => h (hzero ▸ hch)

/-- The magnitude under its sign is the value, also where the negation overflows. -/
theorem signed_magnitude (v : BitVec w) :
    (if v.slt 0 then -BitVec.ofNat w v.toInt.natAbs else BitVec.ofNat w v.toInt.natAbs) = v := by
  rw [natAbs_toInt]
  cases v.slt 0 with
  | true =>
      simp only [if_true]
      rw [BitVec.ofNat_toNat, BitVec.setWidth_eq, BitVec.neg_neg]
  | false =>
      simp only [Bool.false_eq_true, if_false]
      rw [BitVec.ofNat_toNat, BitVec.setWidth_eq]

theorem parse_body (c : NumConv) (zero : Bool) (pad : Nat) (v : BitVec w) {s : CString}
    (hs : s.bytes = (if c.negative v then ['-'.toUInt8] else []) ++
      (padDigits c zero pad (c.magnitude v)).map (digitChar c.largeDigits)) :
    c.parse s = (v, []) := by
  have hbase : c.base = 8 ∨ c.base = 10 ∨ c.base = 16 := by cases c <;> decide
  have hds := padDigits_lt c zero pad (c.magnitude v)
  have hvalue : readDigits c.base (padDigits c zero pad (c.magnitude v)) = c.magnitude v :=
    readDigits_numDigits c.base _ _
  rw [NumConv.parse]
  cases hsigned : c.signed with
  | false =>
      have hneg : c.negative v = false := by rw [NumConv.negative, hsigned, Bool.false_and]
      have hmag : c.magnitude v = v.toNat := by
        rw [NumConv.magnitude, hsigned, if_neg Bool.false_ne_true]
      rw [hneg, if_neg Bool.false_ne_true, List.nil_append] at hs
      rw [if_neg Bool.false_ne_true, strtoul_digits hbase hds hs, hvalue, hmag, BitVec.ofNat_toNat,
        BitVec.setWidth_eq]
  | true =>
      have hneg : c.negative v = v.slt 0 := by rw [NumConv.negative, hsigned, Bool.true_and]
      have hmag : c.magnitude v = v.toInt.natAbs := by rw [NumConv.magnitude, hsigned, if_pos rfl]
      rw [if_pos rfl, strtol_digits hbase hds (c.negative v) hs, hvalue, hneg, hmag,
        signed_magnitude]

theorem readBack_numText (c : NumConv) (zero : Bool) (width : Nat) (v : BitVec w) :
    ReadBack c width v (numText c zero (c.negative v)
      (width - numLen c (c.negative v) (c.magnitude v)) (c.magnitude v)) := by
  have hbody := body_char c zero (c.negative v)
    (width - numLen c (c.negative v) (c.magnitude v)) (c.magnitude v)
  refine ⟨?_, ?_, ?_⟩
  · rw [length_numText]
    omega
  · intro h
    rcases List.mem_append.mp h with hblank | hchar
    · exact absurd (List.eq_of_mem_replicate hblank) (by decide)
    · exact (hbody 0 hchar).1 rfl
  · rw [numText, dropWhile_blanks fun ch hch => (hbody ch hch).2]
    exact parse_body c zero _ v (ofBuffer_bytes fun h => (hbody 0 h).1 rfl)

end RoundTrip

/-- Every value of 32 or 64 bits is read back from its text in a field of any width
that an `int` holds, and `tmp_buf` is never overrun. -/
theorem number_read_back (wide : Bool) (c : NumConv) (zero : Bool) (width : Nat)
    (hwidth : width < 2 ^ 31) :
    (∀ v : BitVec 32, ∃ text, formatParse wide (c.format false zero width) [.w32 v] = some text ∧
        ReadBack c width v text) ∧
      (∀ v : BitVec 64, ∃ text, formatParse wide (c.format true zero width) [.w64 v] = some text ∧
        ReadBack c width v text) ∧
      ∀ (num : BitVec 64) (flags : Flags), (tmpBuf (takeSign num flags) flags).length ≤ 32 := by
  refine ⟨?_, ?_, fun num flags => length_tmpBuf (takeSign num flags) flags⟩
  · intro v
    obtain ⟨hholds, hsign⟩ := takeSign_32 c zero v
    refine ⟨_, formatParse_32 width v, ?_⟩
    rw [sprintfNum_eq c false zero hholds hsign hwidth]
    exact readBack_numText c zero width v
  · intro v
    obtain ⟨hholds, hsign⟩ := takeSign_64 c zero v
    refine ⟨_, formatParse_64 width v, ?_⟩
    rw [sprintfNum_eq c true zero hholds hsign hwidth]
    exact readBack_numText c zero width v

/-- The most negative value in eight columns. -/
theorem number_read_back_least :
    ∃ text, formatParse false (NumConv.d.format false true 8) [.w32 0x80000000] = some text ∧
      ReadBack .d 8 (0x80000000 : BitVec 32) text :=
  (number_read_back false .d true 8 (by decide)).1 0x80000000

/-- A width of 32 bits is negative as an `int`. -/
theorem width_lost :
    ¬ ∀ (wide : Bool) (c : NumConv) (zero : Bool) (width : Nat) (v : BitVec 32),
      ∃ text, formatParse wide (c.format false zero width) [.w32 v] = some text ∧
        ReadBack c width v text := by
  intro h
  obtain ⟨text, htext, hread⟩ := h false .u false 4294967295 0
  have hone : formatParse false (NumConv.u.format false false 4294967295) [.w32 0] =
      some ['0'.toUInt8] := formatParse_32 4294967295 0
  obtain rfl : text = ['0'.toUInt8] := Option.some.inj (htext.symm.trans hone)
  have hle : 4294967295 ≤ 1 := (Nat.le_max_left _ _).trans_eq hread.length.symm
  exact absurd hle (by decide)

end Plo.Lib
