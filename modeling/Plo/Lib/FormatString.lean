import Plo.Lib.FormatSpec

/-!
Strings printed in a field. The end of the string is looked for among as many
characters as the field has columns, so a string longer than its field is cut off.
-/
namespace Plo.Lib

section Format

def stringSpec (left : Bool) (width : Nat) : List UInt8 :=
  (if left then ['-'.toUInt8] else []) ++ (widthText width ++ ['s'.toUInt8])

theorem stringSpec_noNul (left : Bool) (width : Nat) :
    0 ∉ '%'.toUInt8 :: stringSpec left width := by
  have hleft : 0 ∉ (if left then ['-'.toUInt8] else []) := by cases left <;> decide
  simp only [stringSpec, List.mem_cons, List.mem_append, not_or]
  exact ⟨by decide, hleft, widthText_noNul width, by decide, List.not_mem_nil⟩

/-- `%Ns` or `%-Ns`. -/
def stringFormat (left : Bool) (width : Nat) : CString :=
  ⟨'%'.toUInt8 :: stringSpec left width, stringSpec_noNul left width⟩

theorem formatParse_string (wide left : Bool) (width : Nat) (s : CString) :
    formatParse wide (stringFormat left width) [.str (some s)] =
      some (sprintfString s ⟨{ minus := left }, BitVec.ofNat 32 width, -1⟩) := by
  have htail : AfterWidth ['s'.toUInt8] :=
    ⟨List.cons_ne_nil _ _, fun _ => rfl, fun _ => rfl, rfl, rfl⟩
  have hstart (rest : List UInt8) : flagChars {} ((if left then ['-'.toUInt8] else []) ++ rest) =
      flagChars { minus := left } rest := by
    cases left <;> rfl
  exact formatParse_one rfl (parseSpec_width htail hstart rfl width _) rfl

end Format

section Length
variable {s : CString}

theorem memchrNul_eq (s : CString) (n : Nat) :
    memchrNul s n = if s.bytes.length < n then some s.bytes.length else none := by
  have hnone {bytes : List UInt8} (h : 0 ∉ bytes) : bytes.findIdx? (· = 0) = none := by
    rw [List.findIdx?_eq_none_iff]
    exact fun c hc => decide_eq_false fun hzero => h (hzero ▸ hc)
  rw [memchrNul]
  split
  · next hlt =>
    rw [List.take_of_length_le (by rw [List.length_append]; exact hlt), List.findIdx?_append,
      hnone s.noNul]
    simp
  · next hge =>
    rw [List.take_append_of_le_length (Nat.not_lt.mp hge)]
    exact hnone fun h => s.noNul (List.mem_of_mem_take h)

/-- The characters fed of a string without a precision. -/
theorem toNat_stringLen (s : CString) (flags : Flags) (n : BitVec 32) :
    (stringLen s ⟨flags, n, -1⟩).toNat =
      if n = 0 then s.bytes.length % 2 ^ 32 else min s.bytes.length n.toNat := by
  have hprecision : ¬ (-1 : BitVec 32).toInt ≥ 0 := by decide
  simp only [stringLen, if_neg hprecision, memchrNul_eq]
  by_cases hn : n = 0
  · subst hn
    exact BitVec.toNat_ofNat _ _
  · have hpos : n > 0 := by
      rw [gt_iff_lt, BitVec.lt_def, BitVec.ofNat_eq_ofNat, BitVec.toNat_ofNat, Nat.zero_mod,
        Nat.pos_iff_ne_zero]
      exact fun hzero => hn (BitVec.eq_of_toNat_eq hzero)
    have hlt := n.isLt
    rw [if_pos hpos, if_neg hn]
    by_cases hlen : s.bytes.length < n.toNat
    · simp only [if_pos hlen, BitVec.toNat_ofNat]
      omega
    · simp only [if_neg hlen]
      omega

/-- The string with blanks on one side up to a number of columns. -/
def padded (left : Bool) (width : Nat) (bytes : List UInt8) : List UInt8 :=
  List.replicate (if left then 0 else width - bytes.length) ' '.toUInt8 ++ bytes ++
    List.replicate (if left then width - bytes.length else 0) ' '.toUInt8

theorem length_padded (left : Bool) (width : Nat) (bytes : List UInt8) :
    (padded left width bytes).length = max width bytes.length := by
  simp only [padded, List.length_append, List.length_replicate]
  cases left <;> simp only [Bool.false_eq_true, if_true, if_false] <;> omega

theorem stringLen_le (s : CString) (flags : Flags) (n : BitVec 32) :
    (stringLen s ⟨flags, n, -1⟩).toNat ≤ s.bytes.length := by
  rw [toNat_stringLen]
  split
  · exact Nat.mod_le _ _
  · exact Nat.min_le_left _ _

/-- A field cuts the string and pads what is left. -/
theorem sprintfString_eq (s : CString) (left : Bool) (n : BitVec 32) :
    sprintfString s ⟨{ minus := left }, n, -1⟩ =
      padded left n.toNat (s.bytes.take (stringLen s ⟨{ minus := left }, n, -1⟩).toNat) := by
  have hle := stringLen_le s { minus := left } n
  simp only [sprintfString, padded, List.length_take, Nat.min_eq_left hle]
  generalize stringLen s ⟨{ minus := left }, n, -1⟩ = l
  have hpad : (if l < n then (n - l).toNat else 0) = n.toNat - l.toNat := by
    split
    · next hlt => exact BitVec.toNat_sub_of_le (BitVec.le_of_lt hlt)
    · next hge =>
      rw [BitVec.not_lt, BitVec.le_def] at hge
      omega
  rw [hpad]

end Length

/-- The width keeps its value in 32 bits and the string has no more characters than
columns; without a width, its length keeps its value. -/
def StringFits (width : Nat) (s : CString) : Prop :=
  width < 2 ^ 32 ∧ s.bytes.length ≤ if width = 0 then 2 ^ 32 - 1 else width

/-- The text is the whole string with blanks up to the width exactly for the strings
that fit. -/
theorem string_padded_iff (wide left : Bool) (width : Nat) (s : CString) :
    formatParse wide (stringFormat left width) [.str (some s)] =
        some (padded left width s.bytes) ↔
      StringFits width s := by
  have hlen := toNat_stringLen s { minus := left } (BitVec.ofNat 32 width)
  have hle := stringLen_le s { minus := left } (BitVec.ofNat 32 width)
  have hzero : BitVec.ofNat 32 width = 0 ↔ width % 2 ^ 32 = 0 := by
    rw [← BitVec.toNat_inj, BitVec.toNat_ofNat]
    rfl
  rw [formatParse_string, Option.some.injEq, sprintfString_eq, StringFits]
  generalize (stringLen s ⟨{ minus := left }, BitVec.ofNat 32 width, -1⟩).toNat = l at hlen hle
  simp only [hzero, BitVec.toNat_ofNat] at hlen ⊢
  constructor
  · intro heq
    have hsame := congrArg List.length heq
    rw [length_padded, length_padded, List.length_take] at hsame
    split at hlen <;> split <;> omega
  · rintro ⟨hwidth, hfits⟩
    have hall : l = s.bytes.length := by
      rw [Nat.mod_eq_of_lt hwidth] at hlen
      split at hlen <;> split at hfits <;> omega
    rw [Nat.mod_eq_of_lt hwidth, hall, List.take_length]

/-- A name of three characters in a field of two columns. -/
theorem string_cut_off :
    ¬ ∀ (wide left : Bool) (width : Nat) (s : CString),
      formatParse wide (stringFormat left width) [.str (some s)] =
        some (padded left width s.bytes) := by
  intro h
  have htext := h false false 2 (.ofBuffer [0x61, 0x62, 0x63])
  rw [formatParse_string] at htext
  exact absurd (Option.some.inj htext) (by decide)

end Plo.Lib
