import Mathlib.Data.Nat.Digits.Lemmas
import Plo.Base.Digits
import Plo.Lib.Format

/-!
What stands between `%` and a conversion. Every stage of the parser leaves a part of
the format that comes after it; a width written in decimal is read as it is meant up
to the 32 bits it is kept in.
-/
namespace Plo.Lib

section Width

/-- The decimal digits of a width; none for no width. -/
def widthText (width : Nat) : List UInt8 := (Nat.digits 10 width).reverse.map (digitChar false)

/-- What may follow a width: no flag, digit, precision or the end of the format. -/
structure AfterWidth (tail : List UInt8) : Prop where
  ne_nil : tail ≠ []
  flags : ∀ flags, flagChars flags tail = (flags, tail)
  digits : ∀ n, decimal n tail = (n, tail)
  precision : skip '.'.toUInt8 tail = none
  star : skip '*'.toUInt8 tail = none

variable {tail : List UInt8}

theorem widthText_noNul (width : Nat) : 0 ∉ widthText width := by
  intro h
  obtain ⟨d, hd, heq⟩ := List.mem_map.mp h
  have hlt : d < 10 := Nat.digits_lt_base (by decide) (List.mem_reverse.mp hd)
  have hne : ∀ d < 10, digitChar false d ≠ 0 := by decide
  exact hne d hlt heq

/-- A width begins with no zero, so with no flag. -/
theorem flagChars_width (htail : AfterWidth tail) (flags : Flags) (width : Nat) :
    flagChars flags (widthText width ++ tail) = (flags, widthText width ++ tail) := by
  rw [widthText]
  cases hds : (Nat.digits 10 width).reverse with
  | nil => exact htail.flags flags
  | cons d ds =>
      have hmem : d ∈ Nat.digits 10 width := by
        rw [← List.mem_reverse, hds]
        exact List.mem_cons_self
      have hlt : d < 10 := Nat.digits_lt_base (by decide) hmem
      have hne : d ≠ 0 := by
        have hlast : Nat.digits 10 width = ds.reverse ++ [d] := by
          rw [← List.reverse_reverse (Nat.digits 10 width), hds, List.reverse_cons]
        have hwidth : width ≠ 0 := by
          rintro rfl
          rw [Nat.digits_zero] at hmem
          exact absurd hmem List.not_mem_nil
        have hnonzero := Nat.getLast_digit_ne_zero 10 hwidth
        simp only [hlast, List.getLast_append, List.getLast_singleton] at hnonzero
        exact hnonzero
      have hflag : ∀ d < 10, d ≠ 0 → digitChar false d ≠ ' '.toUInt8 ∧
          digitChar false d ≠ '-'.toUInt8 ∧ digitChar false d ≠ '0'.toUInt8 ∧
          digitChar false d ≠ '+'.toUInt8 ∧ digitChar false d ≠ '#'.toUInt8 ∧
          digitChar false d ≠ '*'.toUInt8 := by decide
      obtain ⟨h₁, h₂, h₃, h₄, h₅, h₆⟩ := hflag d hlt hne
      rw [List.map_cons, List.cons_append, flagChars, if_neg h₁, if_neg h₂, if_neg h₃, if_neg h₄,
        if_neg h₅, if_neg h₆]

theorem decimal_map (htail : AfterWidth tail) {ds : List Nat} (hds : ∀ d ∈ ds, d < 10)
    (n : Nat) :
    decimal (BitVec.ofNat 32 n) (ds.map (digitChar false) ++ tail) =
      (BitVec.ofNat 32 (ds.foldl (fun n d => n * 10 + d) n), tail) := by
  induction ds generalizing n with
  | nil => exact htail.digits _
  | cons d ds ih =>
      have hdigit : ∀ d < 10, (digitChar false d ≥ '0'.toUInt8 ∧ digitChar false d ≤ '9'.toUInt8) ∧
          (digitChar false d).toNat - '0'.toUInt8.toNat = d := by decide
      obtain ⟨hd, hds⟩ := List.forall_mem_cons.mp hds
      obtain ⟨hrange, hvalue⟩ := hdigit d hd
      have hstep : BitVec.ofNat 32 n * 10 + BitVec.ofNat 32 d = BitVec.ofNat 32 (n * 10 + d) := by
        rw [BitVec.ofNat_add, BitVec.ofNat_mul]
        rfl
      rw [List.map_cons, List.cons_append, decimal, if_pos hrange, hvalue, hstep, ih hds]
      rfl

theorem decimal_width (htail : AfterWidth tail) (width : Nat) :
    decimal 0 (widthText width ++ tail) = (BitVec.ofNat 32 width, tail) := by
  have hds : ∀ d ∈ (Nat.digits 10 width).reverse, d < 10 := fun d hd =>
    Nat.digits_lt_base (by decide) (List.mem_reverse.mp hd)
  have hvalue : readDigits 10 (Nat.digits 10 width).reverse = width := by
    rw [readDigits_reverse, Nat.ofDigits_digits]
  rw [widthText, show (0 : BitVec 32) = BitVec.ofNat 32 0 from rfl, decimal_map htail hds 0]
  exact congrArg (fun n => (BitVec.ofNat 32 n, tail)) hvalue

/-- Flags, a width and what follows it; the flags ask for no width of the caller. -/
theorem parseSpec_width (htail : AfterWidth tail) {wide : Bool} {start : List UInt8} {flags : Flags}
    (hstart : ∀ rest, flagChars {} (start ++ rest) = flagChars flags rest)
    (hstar : flags.fieldWidthStar = false) (width : Nat) (args : List Arg) :
    parseSpec wide (start ++ (widthText width ++ tail)) args =
      some (⟨(lengthChars wide flags tail).1, BitVec.ofNat 32 width, -1⟩,
        (lengthChars wide flags tail).2, args) := by
  have hflags := (hstart (widthText width ++ tail)).trans (flagChars_width htail flags width)
  rw [parseSpec, hflags]
  cases hformat : widthText width ++ tail with
  | nil => exact absurd (List.append_eq_nil_iff.mp hformat).2 htail.ne_nil
  | cons fmt format =>
      simp only
      rw [← hformat, decimal_width htail]
      simp only [hstar, Bool.false_eq_true, if_false, htail.precision, htail.star]

end Width

section Fuel

theorem skip_length {c : UInt8} {format rest : List UInt8} (h : skip c format = some rest) :
    rest.length < format.length := by
  cases format with
  | nil => cases h
  | cons fmt format =>
      rw [skip] at h
      split at h
      · cases h
        exact Nat.lt_succ_self _
      · cases h

theorem flagChars_length (flags : Flags) (format : List UInt8) :
    (flagChars flags format).2.length ≤ format.length := by
  induction format generalizing flags with
  | nil => exact le_rfl
  | cons fmt format ih =>
      rw [flagChars]
      have hnext (flags : Flags) : (flagChars flags format).2.length ≤ (fmt :: format).length :=
        (ih flags).trans (Nat.le_succ _)
      split
      · exact hnext _
      · split
        · exact hnext _
        · split
          · exact hnext _
          · split
            · exact hnext _
            · split
              · exact hnext _
              · split
                · exact hnext _
                · exact le_rfl

theorem decimal_length (n : BitVec 32) (format : List UInt8) :
    (decimal n format).2.length ≤ format.length := by
  induction format generalizing n with
  | nil => exact le_rfl
  | cons fmt format ih =>
      rw [decimal]
      split
      · exact (ih _).trans (Nat.le_succ _)
      · exact le_rfl

theorem lengthChars_length (wide : Bool) (flags : Flags) (format : List UInt8) :
    (lengthChars wide flags format).2.length ≤ format.length := by
  rw [lengthChars]
  split
  next flags₁ format₁ hl =>
  have hle : format₁.length ≤ format.length := by
    split at hl
    · cases hl
      exact le_rfl
    · next rest₁ h₁ =>
      split at hl
      · cases hl
        exact (skip_length h₁).le
      · next rest₂ h₂ =>
        cases hl
        exact (skip_length h₂).le.trans (skip_length h₁).le
  split
  · exact hle
  · next rest hz => exact (skip_length hz).le.trans hle

theorem parseSpec_length {wide : Bool} {format rest : List UInt8} {args args' : List Arg}
    {spec : Spec} (h : parseSpec wide format args = some (spec, rest, args')) :
    rest.length ≤ format.length := by
  have hflags := flagChars_length {} format
  rw [parseSpec] at h
  split at h
  · next flags heq =>
    cases h
    exact Nat.zero_le _
  · next flags format₁ hne heq =>
    rw [heq] at hflags
    have hdecimal := (decimal_length 0 format₁).trans hflags
    dsimp only at h
    split at h
    · cases h
    · next n args₁ hwidth =>
      -- the format behind the precision
      have hbehind {rest₂ : List UInt8}
          (hdot : skip '.'.toUInt8 (decimal 0 format₁).2 = some rest₂) :
          (decimal 0 rest₂).2.length ≤ format.length :=
        (decimal_length 0 rest₂).trans ((skip_length hdot).le.trans hdecimal)
      split at h
      · cases h
      · next frac format₃ args₃ hstar =>
        cases h
        refine (lengthChars_length wide flags format₃).trans ?_
        split at hstar
        · cases hstar
          split
          · exact hdecimal
          · next hdot => exact hbehind hdot
        · next rest₃ hskip =>
          obtain ⟨r, -, hr⟩ := Option.map_eq_some_iff.mp hstar
          cases hr
          refine (skip_length hskip).le.trans ?_
          split
          · exact hdecimal
          · next hdot => exact hbehind hdot

/-- More fuel than there are characters changes nothing, so the format is read to its
end. -/
theorem formatLoop_fuel (wide : Bool) {k k' : Nat} {format : List UInt8} (hk : format.length < k)
    (hk' : format.length < k') (args : List Arg) :
    formatLoop wide k format args = formatLoop wide k' format args := by
  induction k generalizing k' format args with
  | zero => exact absurd hk (Nat.not_lt_zero _)
  | succ k ih =>
      obtain ⟨k', rfl⟩ : ∃ n, k' = n + 1 := Nat.exists_eq_add_one.mpr (Nat.zero_lt_of_lt hk')
      cases format with
      | nil => rfl
      | cons fmt format =>
          rw [List.length_cons, Nat.add_lt_add_iff_right] at hk hk'
          rw [formatLoop, formatLoop]
          split
          · rw [ih hk hk']
          · split
            · rfl
            · cases hspec : parseSpec wide format args with
              | none => rfl
              | some r =>
                  obtain ⟨spec, rest, args'⟩ := r
                  cases rest with
                  | nil => rfl
                  | cons fmt' rest =>
                      have hrest := parseSpec_length hspec
                      rw [List.length_cons] at hrest
                      simp only
                      cases convert wide spec fmt' args' with
                      | none => rfl
                      | some out =>
                          simp only
                          rw [ih (by omega) (by omega : rest.length < k')]

/-- A format of one conversion: its text is the whole one. -/
theorem formatParse_one {wide : Bool} {format : CString} {rest : List UInt8} {spec : Spec}
    {ch : UInt8} {args args' args'' : List Arg} {text : List UInt8}
    (hformat : format.bytes = '%'.toUInt8 :: rest)
    (hspec : parseSpec wide rest args = some (spec, [ch], args'))
    (hconvert : convert wide spec ch args' = some (text, args'')) :
    formatParse wide format args = some text := by
  have hne : rest ≠ [] := by
    rintro rfl
    exact absurd (parseSpec_length hspec) (Nat.not_succ_le_zero 0)
  have hpercent : ¬ ('%'.toUInt8 ≠ '%'.toUInt8) := fun h => h rfl
  rw [formatParse, hformat, formatLoop, if_neg hpercent, if_neg hne, hspec]
  simp only [hconvert]
  -- nothing is left of the format
  rw [List.length_cons, formatLoop, Option.map_some, List.append_nil]

end Fuel

end Plo.Lib
