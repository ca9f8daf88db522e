import Plo.Base.Word
import Plo.Lib.Format

/-!
A region of memory printed in rows of sixteen bytes. The address of the row is a word that
wraps, and the loop compares it with the end of the region.
-/
namespace Plo.Lib
variable {w : Nat}

def isprint (c : UInt8) : Bool := c ≥ ' '.toUInt8 && c < 0x7f

/-- What is shown of an address: nothing outside the region, a mark where the validator
refuses it, the byte else. -/
inductive Cell
  | blank
  | hidden
  | byte (value : UInt8)
  deriving DecidableEq

/-- The text that `lib_printf` makes of a format and its arguments. -/
def printf (wide : Bool) (format : String) (args : List Arg) : List UInt8 :=
  (formatParse wide (.ofBuffer format.toUTF8.toList) args).getD []

def Cell.hex : Cell → List UInt8
  | .blank => "   ".toUTF8.toList
  | .hidden => "XX ".toUTF8.toList
  | .byte value => printf false "%02x " [.w32 (value.toBitVec.setWidth 32)]

def Cell.char : Cell → UInt8
  | .blank => ' '.toUInt8
  | .hidden => 'X'.toUInt8
  | .byte value => if isprint value then value else '.'.toUInt8

/-- What a region is printed from. -/
structure Region (w : Nat) where
  start : BitVec w
  end_ : BitVec w
  validator : Option (BitVec w → Bool)
  mem : BitVec w → UInt8

def Region.valid (r : Region w) (ptr : BitVec w) : Bool :=
  match r.validator with
  | none => true
  | some validator => validator ptr

/-- The tests of either of the loops over the columns. -/
def Region.cell (r : Region w) (ptr : BitVec w) : Cell :=
  if ptr < r.start ∨ ptr ≥ r.end_ then .blank
  else if r.valid ptr then .byte (r.mem ptr) else .hidden

structure Row (w : Nat) where
  offp : BitVec 32
  cells : List Cell

def Row.text (row : Row w) : List UInt8 :=
  printf false "0x%08x | " [.w32 row.offp] ++ row.cells.flatMap Cell.hex ++ "| ".toUTF8.toList ++
    row.cells.map Cell.char ++ "\n".toUTF8.toList

def Region.row (r : Region w) (offp offs : BitVec w) : Row w :=
  { offp := offp.setWidth 32
    cells := (List.range 16).map fun col => r.cell (offs + BitVec.ofNat w col) }

/-- The loop over the rows, unless it takes more turns than the fuel. -/
def Region.rows (r : Region w) : Nat → BitVec w → BitVec w → Option (List (Row w))
  | 0, _, offs => if offs < r.end_ then none else some []
  | fuel + 1, offp, offs =>
    if offs < r.end_ then (r.rows fuel (offp + 16) (offs + 16)).map (r.row offp offs :: ·)
    else some []

/-- `lib_consolePutRegionHex`. -/
def putRegionHex (fuel : Nat) (r : Region w) (offp : BitVec w) (align : Bool) :
    Option (List (Row w)) :=
  if align then r.rows fuel (offp / 16 * 16) (r.start / 16 * 16) else r.rows fuel offp r.start

section
variable {r : Region w} {offp offs : BitVec w}

/-- What is shown of an address of the region. -/
def Region.shown (r : Region w) (ptr : BitVec w) : Cell :=
  if r.valid ptr then .byte (r.mem ptr) else .hidden

theorem cell_inside {ptr : BitVec w} (hlo : r.start ≤ ptr) (hhi : ptr < r.end_) :
    r.cell ptr = r.shown ptr := by
  have hin : ¬(ptr < r.start ∨ ptr ≥ r.end_) := by
    rintro (h | h)
    · exact Nat.not_lt.mpr hlo h
    · exact Nat.not_lt.mpr h hhi
  rw [Region.cell, if_neg hin]
  rfl

theorem toNat_add_row (hw : 4 < w) (offs : BitVec w) :
    (offs + 16).toNat = (offs.toNat + 16) % 2 ^ w := by
  have hpow : 2 ^ 5 ≤ 2 ^ w := Nat.pow_le_pow_right (by decide) hw
  have hlt : 16 < 2 ^ w := by omega
  have h16 : (16 : BitVec w).toNat = 16 := Nat.mod_eq_of_lt hlt
  rw [BitVec.toNat_add, h16]

/-- The rows of a region whose last row does not reach the top of the address space. -/
theorem rows_eq (hw : 4 < w) (n : Nat) (hlow : n ≠ 0 → offs.toNat + 16 * (n - 1) < r.end_.toNat)
    (hhigh : r.end_.toNat ≤ offs.toNat + 16 * n) (htop : offs.toNat + 16 * n < 2 ^ w) :
    ∃ rows, r.rows n offp offs = some rows ∧ rows.flatMap Row.cells =
      (List.range (16 * n)).map fun i => r.cell (offs + BitVec.ofNat w i) := by
  induction n generalizing offp offs with
  | zero =>
      have hend : ¬offs < r.end_ := Nat.not_lt.mpr hhigh
      exact ⟨[], if_neg hend, rfl⟩
  | succ n ih =>
      have hlt : offs < r.end_ := by
        have hfirst := hlow (Nat.succ_ne_zero n)
        exact Nat.lt_of_le_of_lt (Nat.le_add_right _ _) hfirst
      have hnext : (offs + 16).toNat = offs.toNat + 16 := by
        rw [toNat_add_row hw, Nat.mod_eq_of_lt (by omega)]
      obtain ⟨rows, hrows, hcells⟩ := @ih (offp + 16) (offs + 16) (by omega)
        (by omega) (by omega)
      refine ⟨r.row offp offs :: rows, ?_, ?_⟩
      · rw [Region.rows, if_pos hlt, hrows]
        rfl
      · have hlen : 16 * (n + 1) = 16 + 16 * n := by omega
        rw [List.flatMap_cons, hcells, hlen, List.range_add, List.map_append, List.map_map]
        congr 1
        refine List.map_congr_left ?_
        intro i _
        simp only [Function.comp_apply]
        rw [BitVec.ofNat_add, ← BitVec.add_assoc]
        rfl

/-- When the end lies beyond the last row of the address space, the address of the row wraps
before it gets there. -/
theorem rows_none (hw : 4 < w) (hend : 2 ^ w - 16 + offs.toNat % 16 < r.end_.toNat)
    (fuel : Nat) : r.rows fuel offp offs = none := by
  have hpow : 16 ∣ 2 ^ w := Nat.pow_dvd_pow 2 (Nat.le_of_lt hw : 4 ≤ w)
  have hlt : offs < r.end_ := by
    have hle : offs.toNat ≤ 2 ^ w - 16 + offs.toNat % 16 := by omega
    exact Nat.lt_of_le_of_lt hle hend
  induction fuel generalizing offp offs with
  | zero => exact if_pos hlt
  | succ fuel ih =>
      have hmod : (offs + 16).toNat % 16 = offs.toNat % 16 := by
        rw [toNat_add_row hw, Nat.mod_mod_of_dvd _ hpow, Nat.add_mod_right]
      have hend' : 2 ^ w - 16 + (offs + 16).toNat % 16 < r.end_.toNat := by rw [hmod]; exact hend
      have hlt' : offs + 16 < r.end_ := by
        have hle : (offs + 16).toNat ≤ 2 ^ w - 16 + (offs + 16).toNat % 16 := by omega
        exact Nat.lt_of_le_of_lt hle hend'
      rw [Region.rows, if_pos hlt, ih hend' hlt']
      rfl

/-- The cells from an address at or before the region to one at or behind its end. -/
theorem cells_eq {before n after : Nat} (hoffs : r.start.toNat = offs.toNat + before)
    (hend : r.end_.toNat = r.start.toNat + n) (htop : r.end_.toNat + after < 2 ^ w) :
    (List.range (before + n + after)).map (fun i => r.cell (offs + BitVec.ofNat w i)) =
      List.replicate before .blank ++
        (List.range n).map (fun i => r.shown (r.start + BitVec.ofNat w i)) ++
        List.replicate after .blank := by
  have hat {i : Nat} (hi : i < before + n + after) :
      (offs + BitVec.ofNat w i).toNat = offs.toNat + i :=
    toNat_add_ofNat_of_lt offs (by omega)
  have hshown {i : Nat} (hi : i < n) :
      (r.start + BitVec.ofNat w i).toNat = r.start.toNat + i :=
    toNat_add_ofNat_of_lt r.start (by omega)
  have hfirst : (List.range before).map (fun i => r.cell (offs + BitVec.ofNat w i)) =
      List.replicate before .blank := by
    rw [← List.length_range (n := before), ← List.map_const, List.length_range]
    refine List.map_congr_left ?_
    intro i hi
    have hi := List.mem_range.mp hi
    have hlt : offs + BitVec.ofNat w i < r.start := by
      rw [BitVec.lt_def, hat (by omega)]
      omega
    exact if_pos (Or.inl hlt)
  have hlast : (List.range after).map (fun i => r.cell (offs + BitVec.ofNat w (before + n + i))) =
      List.replicate after .blank := by
    rw [← List.length_range (n := after), ← List.map_const, List.length_range]
    refine List.map_congr_left ?_
    intro i hi
    have hi := List.mem_range.mp hi
    have hge : offs + BitVec.ofNat w (before + n + i) ≥ r.end_ := by
      rw [ge_iff_le, BitVec.le_def, hat (by omega)]
      omega
    exact if_pos (Or.inr hge)
  have hmiddle : (List.range n).map (fun i => r.cell (offs + BitVec.ofNat w (before + i))) =
      (List.range n).map (fun i => r.shown (r.start + BitVec.ofNat w i)) := by
    refine List.map_congr_left ?_
    intro i hi
    have hi := List.mem_range.mp hi
    have hptr : offs + BitVec.ofNat w (before + i) = r.start + BitVec.ofNat w i := by
      refine BitVec.eq_of_toNat_eq ?_
      rw [hat (by omega), hshown hi]
      omega
    rw [hptr]
    refine cell_inside ?_ ?_
    · rw [BitVec.le_def, hshown hi]
      omega
    · rw [BitVec.lt_def, hshown hi]
      omega
  rw [List.range_add, List.range_add, List.map_append, List.map_append, List.map_map, List.map_map]
  exact congrArg₂ _ (congrArg₂ _ hfirst hmiddle) hlast

/-- How far before the region the first row begins. -/
def Region.lead (r : Region w) (align : Bool) : Nat := if align then r.start.toNat % 16 else 0

/-- Every address of the region is shown once and in order, between as many blank cells as
make the first and the last row full. -/
def Region.Shown (r : Region w) (lead : Nat) (rows : List (Row w)) : Prop :=
  rows.flatMap Row.cells = List.replicate lead .blank ++
    (List.range (r.end_.toNat - r.start.toNat)).map
      (fun i => r.shown (r.start + BitVec.ofNat w i)) ++
    List.replicate ((16 - (lead + (r.end_.toNat - r.start.toNat)) % 16) % 16) .blank

theorem toNat_alignRow (hw : 4 < w) (x : BitVec w) :
    (x / 16 * 16).toNat = x.toNat - x.toNat % 16 := by
  have hpow : 2 ^ 5 ≤ 2 ^ w := Nat.pow_le_pow_right (by decide) hw
  have hlt : 16 < 2 ^ w := by omega
  have h16 : (16 : BitVec w).toNat = 16 := Nat.mod_eq_of_lt hlt
  rw [BitVec.toNat_mul, BitVec.toNat_udiv, h16, Nat.mod_eq_of_lt (by omega)]
  omega

/-- The rows end exactly when an address of a row lies at or behind the end of the region,
and then they show all of it. -/
theorem putRegionHex_iff (hw : 4 < w) (hle : r.start ≤ r.end_) (align : Bool) :
    (∃ fuel rows, putRegionHex fuel r offp align = some rows ∧ r.Shown (r.lead align) rows) ↔
      r.end_.toNat ≤ r.start.toNat - r.lead align ∨
        r.end_.toNat ≤ 2 ^ w - 16 + (r.start.toNat - r.lead align) % 16 := by
  obtain ⟨offp', offs, hoffs, hrun⟩ : ∃ offp' offs : BitVec w,
      offs.toNat = r.start.toNat - r.lead align ∧
        ∀ fuel, putRegionHex fuel r offp align = r.rows fuel offp' offs := by
    cases align with
    | true => exact ⟨_, _, toNat_alignRow hw _, fun _ => rfl⟩
    | false => exact ⟨_, _, rfl, fun _ => rfl⟩
  have hpow : 16 ∣ 2 ^ w := Nat.pow_dvd_pow 2 (Nat.le_of_lt hw : 4 ≤ w)
  have hlead : r.lead align ≤ r.start.toNat := by
    unfold Region.lead
    split <;> omega
  have hle' : r.start.toNat ≤ r.end_.toNat := hle
  rw [← hoffs]
  constructor
  · rintro ⟨fuel, rows, hrows, -⟩
    by_contra hnot
    rw [not_or, Nat.not_le, Nat.not_le] at hnot
    rw [hrun, rows_none hw hnot.2] at hrows
    cases hrows
  · intro hfit
    have htop := r.end_.isLt
    obtain ⟨n, hn⟩ : ∃ n, n = (r.end_.toNat - offs.toNat + 15) / 16 := ⟨_, rfl⟩
    have hroom : offs.toNat + 16 * n < 2 ^ w := by omega
    obtain ⟨rows, hrows, hcells⟩ := @rows_eq w r offp' offs hw n
      (by omega) (by omega) hroom
    refine ⟨n, rows, (hrun n).trans hrows, ?_⟩
    have hlen : 16 * n = r.lead align + (r.end_.toNat - r.start.toNat) +
        (16 - (r.lead align + (r.end_.toNat - r.start.toNat)) % 16) % 16 := by omega
    rw [Region.Shown, hcells, hlen]
    exact cells_eq (by omega) (by omega) (by omega)

end

end Plo.Lib
