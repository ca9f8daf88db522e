import Plo.Base.Word
import Plo.Lib.Ptable

/-!
What an accepted partition table guarantees. The size of a table is computed in
32 bits; a count that is too large by a multiple of `2 ^ 27` puts the magic bytes
over the name of a partition, where they are no letters, with one exception: if
the size comes out as zero, the magic bytes are looked for before the table.
-/
namespace Plo.Lib.Ptable

def nameString (t : Image) (i : Nat) : CString := .ofBuffer ((List.range 8).map (partName t i))

/-- What the users of a partition table rely on. -/
structure Sound (e : Endian) (t : Image) (memsz blksz : BitVec 32) : Prop where
  room : 28 + 32 * (count e t).toNat + 4 ≤ blksz.toNat
  sizes : ∀ i < (count e t).toNat, 0 < (partSize e t i).toNat
  aligned : ∀ i < (count e t).toNat,
    blksz.toNat ∣ (partOffset e t i).toNat ∧ blksz.toNat ∣ (partSize e t i).toNat
  inside : ∀ i < (count e t).toNat,
    (partOffset e t i).toNat + (partSize e t i).toNat ≤ memsz.toNat
  apart : ∀ i < (count e t).toNat, ∀ j < i,
    (partOffset e t i).toNat + (partSize e t i).toNat ≤ (partOffset e t j).toNat ∨
      (partOffset e t j).toNat + (partSize e t j).toNat ≤ (partOffset e t i).toNat
  named : ∀ i < (count e t).toNat, (nameString t i).bytes ≠ [] ∧ (nameString t i).bytes.length < 8 ∧
    ∀ c ∈ (nameString t i).bytes, isalnum c
  distinct : ∀ i < (count e t).toNat, ∀ j < i, nameString t i ≠ nameString t j

section Name
variable {name name' : Nat → UInt8} {m n : Nat}

/-- Letters and digits, then a NUL inside the field. -/
structure IsName (name : Nat → UInt8) (m : Nat) : Prop where
  pos : 0 < m
  short : m < 8
  alnum : ∀ k < m, isalnum (name k) = true
  nul : name m = 0

theorem isName_of_nameVerify (h : nameVerify name = true) : IsName name (alnumPrefix name) := by
  simp only [nameVerify, Bool.not_eq_true', Bool.or_eq_false_iff, decide_eq_false_iff_not,
    not_not, not_le] at h
  refine ⟨Nat.pos_of_ne_zero h.1.1, h.1.2, ?_, h.2⟩
  intro k hk
  have hlt : k < ((List.range 8).takeWhile (fun i => isalnum (name i))).length := hk
  have hpre := (List.takeWhile_prefix (l := List.range 8) (fun i => isalnum (name i))).getElem hlt
  have hmem := List.mem_takeWhile_imp (List.getElem_mem hlt)
  rw [hpre, List.getElem_range] at hmem
  exact hmem

theorem ne_zero_of_alnum {c : UInt8} (h : isalnum c = true) : c ≠ 0 := by
  rintro rfl
  exact absurd h (by decide)

theorem IsName.bytes (h : IsName name m) :
    (CString.ofBuffer ((List.range 8).map name)).bytes = (List.range m).map name := by
  have hsplit : List.range 8 = List.range m ++ m :: List.range' (m + 1) (7 - m) := by
    have hshort := h.short
    rw [← List.range'_succ, List.range_eq_range', List.range_eq_range',
      show 7 - m + 1 = 8 - m by omega]
    have happ := List.range'_append_1 (s := 0) (m := m) (n := 8 - m)
    rw [Nat.zero_add, show m + (8 - m) = 8 by omega] at happ
    exact happ.symm
  simp only [CString.ofBuffer]
  rw [hsplit, List.map_append, List.map_cons, List.takeWhile_append_of_pos,
    List.takeWhile_cons_of_neg (by simp [h.nul]), List.append_nil]
  intro c hc
  obtain ⟨k, hk, rfl⟩ := List.mem_map.mp hc
  exact decide_eq_true (ne_zero_of_alnum (h.alnum k (List.mem_range.mp hk)))

theorem strcmp_eq_zero (hm : m < n) (hsame : ∀ k < m, name k = name' k ∧ name k ≠ 0)
    (h : name m = 0) (h' : name' m = 0) : strcmp n name name' = 0 := by
  induction n generalizing name name' m with
  | zero => omega
  | succ n ih =>
      cases m with
      | zero => simp only [strcmp, h, h', if_true]
      | succ m =>
          have h0 := hsame 0 (Nat.succ_pos m)
          simp only [strcmp, if_neg h0.2, if_pos h0.1]
          exact ih (by omega) (fun k hk => hsame (k + 1) (by omega)) h h'

theorem strcmp_same (h : strcmp n name name' = 0) (hm : m < n) (hnul : ∀ k < m, name k ≠ 0) :
    ∀ k < m, name k = name' k := by
  induction n generalizing name name' m with
  | zero => omega
  | succ n ih =>
      intro k hk
      have h0 := hnul 0 (by omega)
      simp only [strcmp, if_neg h0] at h
      by_cases hsame : name 0 = name' 0
      · rw [if_pos hsame] at h
        cases k with
        | zero => exact hsame
        | succ k =>
            refine ih h (by omega : m - 1 < n) ?_ k (by omega)
            exact fun k hk => hnul (k + 1) (by omega)
      · rw [if_neg hsame] at h
        split at h <;> cases h

end Name

section Verify
variable {e : Endian} {t : Image} {memsz blksz : BitVec 32} {crcCheck : Bool} {i j : Nat}

structure PartOk (e : Endian) (t : Image) (memsz blksz : BitVec 32) (i : Nat) : Prop where
  size : 0 < (partSize e t i).toNat
  sizeAligned : blksz.toNat ∣ (partSize e t i).toNat
  offsetAligned : blksz.toNat ∣ (partOffset e t i).toNat
  inside : (partOffset e t i).toNat + (partSize e t i).toNat ≤ memsz.toNat
  name : IsName (partName t i) (alnumPrefix (partName t i))
  compare : ∀ j < i, partCompare e t i j = true

theorem dvd_of_umod_eq_zero {x y : BitVec 32} (h : x % y = 0) : y.toNat ∣ x.toNat := by
  have hval := congrArg BitVec.toNat h
  rw [BitVec.toNat_umod] at hval
  exact Nat.dvd_of_mod_eq_zero hval

theorem partOk_of_partVerify (h : partVerify e t i memsz blksz crcCheck = true) :
    PartOk e t memsz blksz i := by
  unfold partVerify at h
  dsimp only at h
  split at h
  · cases h
  split at h
  · cases h
  next hsize =>
  split at h
  · cases h
  next hsizeAl =>
  split at h
  · cases h
  next hoffsAl =>
  split at h
  · cases h
  next hmem =>
  split at h
  · cases h
  next hover =>
  rw [Bool.and_eq_true, List.all_eq_true] at h
  refine ⟨?_, dvd_of_umod_eq_zero (not_not.mp hsizeAl), dvd_of_umod_eq_zero (not_not.mp hoffsAl),
    ?_, isName_of_nameVerify h.1, fun j hj => h.2 j (List.mem_range.mpr hj)⟩
  · refine Nat.pos_of_ne_zero fun h0 => hsize (BitVec.eq_of_toNat_eq ?_)
    rw [h0]
    rfl
  · have hsz := (partSize e t i).isLt
    rw [gt_iff_lt, BitVec.lt_def, not_lt] at hmem
    rw [BitVec.lt_def, not_lt] at hover
    rcases toNat_add_cases (partOffset e t i) (partSize e t i) with ⟨-, hadd⟩ | ⟨-, hadd⟩ <;> omega

theorem PartOk.apart (hi : PartOk e t memsz blksz i) (hj : PartOk e t memsz blksz j) (hji : j < i) :
    (partOffset e t i).toNat + (partSize e t i).toNat ≤ (partOffset e t j).toNat ∨
      (partOffset e t j).toNat + (partSize e t j).toNat ≤ (partOffset e t i).toNat := by
  have hone : (1 : BitVec 32).toNat = 1 := rfl
  have hmem := memsz.isLt
  have last (k : Nat) (hk : PartOk e t memsz blksz k) :
      (partOffset e t k + partSize e t k - 1).toNat =
        (partOffset e t k).toNat + (partSize e t k).toNat - 1 := by
    have hsize := hk.size
    have hin := hk.inside
    have hadd : (partOffset e t k + partSize e t k).toNat =
        (partOffset e t k).toNat + (partSize e t k).toNat := BitVec.toNat_add_of_lt (by omega)
    rw [BitVec.toNat_sub_of_le (by rw [BitVec.le_def, hone]; omega), hadd, hone]
  have hcmp := hi.compare j hji
  simp only [partCompare, Bool.and_eq_true, Bool.not_eq_true', Bool.and_eq_false_iff,
    decide_eq_false_iff_not, BitVec.le_def, ge_iff_le, last i hi, last j hj] at hcmp
  have hsize := hi.size
  have hsize' := hj.size
  omega

theorem PartOk.distinct (hi : PartOk e t memsz blksz i) (hj : PartOk e t memsz blksz j)
    (hji : j < i) : nameString t i ≠ nameString t j := by
  intro hsame
  have hbytes := congrArg CString.bytes hsame
  rw [nameString, nameString, hi.name.bytes, hj.name.bytes] at hbytes
  have hlen : alnumPrefix (partName t i) = alnumPrefix (partName t j) := by
    have := congrArg List.length hbytes
    rwa [List.length_map, List.length_map, List.length_range, List.length_range] at this
  have hcmp := hi.compare j hji
  simp only [partCompare, Bool.and_eq_true, decide_eq_true_eq] at hcmp
  refine hcmp.2 (strcmp_eq_zero hi.name.short ?_ hi.name.nul (hlen ▸ hj.name.nul))
  intro k hk
  rw [← hlen] at hbytes
  exact ⟨List.map_inj_left.mp hbytes k (List.mem_range.mpr hk),
    ne_zero_of_alnum (hi.name.alnum k hk)⟩

theorem verify_facts (h : verify e t memsz blksz = true) :
    ptableSize (count e t) ≤ blksz ∧
      (List.range 4).map (bytesAt t (((ptableSize (count e t)).toNat : Int) - 4)) = ptableMagic ∧
      ∀ i < (count e t).toNat, PartOk e t memsz blksz i := by
  unfold verify at h
  dsimp only at h
  split at h
  · cases h
  split at h
  · cases h
  next hsize =>
  split at h
  · cases h
  next hmagic =>
  rw [List.all_eq_true] at h
  refine ⟨BitVec.not_lt.mp hsize, not_not.mp hmagic, ?_⟩
  intro i hi
  exact partOk_of_partVerify (h i (List.mem_range.mpr hi))

theorem toNat_ptableSize (c : BitVec 32) :
    (ptableSize c).toNat = 32 * (c.toNat + 1) % 2 ^ 32 := by
  have h28 : (28 : BitVec 32).toNat = 28 := rfl
  have h32 : (32 : BitVec 32).toNat = 32 := rfl
  have h4 : (4 : BitVec 32).toNat = 4 := rfl
  rw [ptableSize, BitVec.toNat_add, BitVec.toNat_add, BitVec.toNat_mul, h28, h32, h4]
  omega

/-- A size that wrapped puts the magic bytes over a name, unless it is zero. -/
theorem count_lt (h : verify e t memsz blksz = true)
    (hcount : ((count e t).toNat + 1) % 2 ^ 27 ≠ 0) : (count e t).toNat + 1 < 2 ^ 27 := by
  obtain ⟨-, hmagic, hparts⟩ := verify_facts h
  by_contra hge
  -- the partition over whose name the magic bytes lie
  let n := ((count e t).toNat + 1) % 2 ^ 27 - 1
  have hn : n < (count e t).toNat := by
    have := Nat.mod_lt ((count e t).toNat + 1) (by decide : 0 < 2 ^ 27)
    omega
  have hsize : (ptableSize (count e t)).toNat = 32 * (n + 1) := by
    rw [toNat_ptableSize]
    omega
  have hname := (hparts n hn).name
  have hfirst := hname.alnum 0 hname.pos
  have hbyte : partName t n 0 = 0xde := by
    have hhead := congrArg (fun l => l.head?) hmagic
    have hat : bytesAt t (((ptableSize (count e t)).toNat : Int) - 4) 0 = partName t n 0 := by
      rw [hsize, partName, partAt, bytesAt, bytesAt]
      congr 1
      omega
    rw [← hat]
    exact Option.some.inj hhead
  rw [hbyte] at hfirst
  exact absurd hfirst (by decide)

end Verify

/-- A table with one partition of a block, and the magic bytes behind it. -/
def oneBlock : Image := fun k =>
  if k = 0 then 1
  else if k = 28 then 0x61
  else if k = 41 then 2
  else if 60 ≤ k ∧ k < 64 then ptableMagic.getD (k - 60).toNat 0
  else 0

section Wrapped

/-- Byte `k` of record `i` in a table of `2 ^ 27 - 1` partitions of 32 bytes,
named by their numbers in base sixteen with the digits `a` to `p`. -/
def wrappedPart (i k : Nat) : UInt8 :=
  if k < 7 then UInt8.ofNat (0x61 + i / 16 ^ k % 16)
  else if k < 8 then 0
  else if k < 12 then wordByte (BitVec.ofNat 32 (32 * i)) (k - 8)
  else if k = 12 then 32
  else 0

/-- The table whose size wraps to zero, with the magic bytes in front of it. -/
def wrapped : Image := fun k =>
  if k < 0 then ptableMagic.getD (k + 4).toNat 0
  else if k < 3 then 0xff
  else if k = 3 then 7
  else if k < 28 then 0
  else wrappedPart ((k - 28).toNat / 32) ((k - 28).toNat % 32)

theorem wrapped_part (i k : Nat) (hk : k < 32) : wrapped (partAt i + k) = wrappedPart i k := by
  have hoffs : (partAt i + k - 28).toNat = 32 * i + k := by
    simp only [partAt]
    omega
  simp only [wrapped, hoffs]
  rw [if_neg (by unfold partAt; omega), if_neg (by unfold partAt; omega),
    if_neg (by unfold partAt; omega), if_neg (by unfold partAt; omega),
    Nat.mul_add_div (by decide), Nat.div_eq_of_lt hk, Nat.mul_add_mod, Nat.mod_eq_of_lt hk,
    Nat.add_zero]

theorem wrapped_count : count .little wrapped = 0x07ffffff := by decide +kernel

theorem wrapped_partOffset (i : Nat) :
    partOffset .little wrapped i = BitVec.ofNat 32 (32 * i) := by
  refine leWord_wordByte ?_
  intro k hk
  have hat := wrapped_part i (8 + k) (by omega)
  rw [bytesAt, show partAt i + 8 + (k : Int) = partAt i + ((8 + k : Nat) : Int) by omega, hat,
    wrappedPart, if_neg (by omega), if_neg (by omega), if_pos (by omega), Nat.add_sub_cancel_left]

theorem wrapped_partSize (i : Nat) : partSize .little wrapped i = 32 := by
  refine leWord_wordByte ?_
  intro k hk
  have hat := wrapped_part i (12 + k) (by omega)
  rw [bytesAt, show partAt i + 12 + (k : Int) = partAt i + ((12 + k : Nat) : Int) by omega, hat,
    wrappedPart, if_neg (by omega), if_neg (by omega), if_neg (by omega)]
  have hcases : k = 0 ∨ k = 1 ∨ k = 2 ∨ k = 3 := by omega
  rcases hcases with rfl | rfl | rfl | rfl <;> decide

theorem wrapped_name (i k : Nat) (hk : k < 7) :
    partName wrapped i k = UInt8.ofNat (0x61 + i / 16 ^ k % 16) := by
  rw [partName, bytesAt, wrapped_part i k (by omega), wrappedPart, if_pos hk]

theorem digit_inj : ∀ d < 16, ∀ d' < 16, UInt8.ofNat (0x61 + d) = UInt8.ofNat (0x61 + d') →
    d = d' := by decide

theorem alnum_digit : ∀ d < 16, isalnum (UInt8.ofNat (0x61 + d)) = true := by decide

theorem wrapped_nameVerify (i : Nat) : nameVerify (partName wrapped i) = true := by
  have halnum (k : Nat) (hk : k < 7) : isalnum (partName wrapped i k) = true := by
    rw [wrapped_name i k hk]
    exact alnum_digit _ (Nat.mod_lt _ (by decide))
  have hnul : partName wrapped i 7 = 0 := by
    rw [partName, bytesAt, wrapped_part i 7 (by decide)]
    rfl
  have hprefix : alnumPrefix (partName wrapped i) = 7 := by
    have hrange : List.range 8 = [0, 1, 2, 3, 4, 5, 6, 7] := rfl
    have hzero : isalnum 0 = false := by decide
    simp [alnumPrefix, hrange, List.takeWhile, halnum, hnul, hzero]
  simp only [nameVerify, hprefix, hnul]
  decide

/-- Numbers with the same digits are the same. -/
theorem eq_of_digits {n i j : Nat} (hi : i < 16 ^ n) (hj : j < 16 ^ n)
    (h : ∀ k, k < n → i / 16 ^ k % 16 = j / 16 ^ k % 16) : i = j := by
  induction n generalizing i j with
  | zero =>
      rw [Nat.pow_zero] at hi hj
      omega
  | succ n ih =>
      have hlow := h 0 (Nat.succ_pos n)
      have hrest : i / 16 = j / 16 := by
        rw [Nat.pow_succ'] at hi hj
        refine ih (Nat.div_lt_of_lt_mul hi) (Nat.div_lt_of_lt_mul hj) fun k hk => ?_
        have hnext := h (k + 1) (Nat.succ_lt_succ hk)
        rw [Nat.pow_succ', ← Nat.div_div_eq_div_mul, ← Nat.div_div_eq_div_mul] at hnext
        exact hnext
      rw [Nat.pow_zero, Nat.div_one, Nat.div_one] at hlow
      omega

theorem wrapped_strcmp {i j : Nat} (hi : i < 2 ^ 27) (hj : j < 2 ^ 27) (hne : i ≠ j) :
    strcmp 8 (partName wrapped i) (partName wrapped j) ≠ 0 := by
  intro hzero
  have hnul (k : Nat) (hk : k < 7) : partName wrapped i k ≠ 0 := by
    rw [wrapped_name i k hk]
    exact ne_zero_of_alnum (alnum_digit _ (Nat.mod_lt _ (by decide)))
  have hsame (k : Nat) (hk : k < 7) : i / 16 ^ k % 16 = j / 16 ^ k % 16 := by
    have hbyte := strcmp_same hzero (m := 7) (by decide) hnul k hk
    rw [wrapped_name i k hk, wrapped_name j k hk] at hbyte
    exact digit_inj _ (Nat.mod_lt _ (by decide)) _ (Nat.mod_lt _ (by decide)) hbyte
  have hbound : 2 ^ 27 < 16 ^ 7 := by decide
  exact hne (eq_of_digits (hi.trans hbound) (hj.trans hbound) hsame)

theorem wrapped_partVerify (i : Nat) (hi : i < 0x07ffffff) :
    partVerify .little wrapped i 0xffffffff 32 false = true := by
  have hoffs : (partOffset .little wrapped i).toNat = 32 * i := by
    rw [wrapped_partOffset, BitVec.toNat_ofNat]
    omega
  have hsize : (32 : BitVec 32).toNat = 32 := rfl
  have hsum : (partOffset .little wrapped i + 32).toNat = 32 * i + 32 := by
    rw [BitVec.toNat_add_of_lt (by rw [hoffs, hsize]; omega), hoffs, hsize]
  have hmod : partOffset .little wrapped i % 32 = 0 := by
    apply BitVec.eq_of_toNat_eq
    rw [BitVec.toNat_umod, hoffs, hsize, Nat.mul_mod_right]
    rfl
  have hall : (List.range i).all (partCompare .little wrapped i) = true := by
    rw [List.all_eq_true]
    intro j hj
    rw [List.mem_range] at hj
    have hoffs' : (partOffset .little wrapped j).toNat = 32 * j := by
      rw [wrapped_partOffset, BitVec.toNat_ofNat]
      omega
    have hlast : (partOffset .little wrapped j + 32 - 1).toNat = 32 * j + 31 := by
      rw [BitVec.toNat_sub_of_le, BitVec.toNat_add_of_lt (by rw [hoffs', hsize]; omega), hoffs',
        hsize]
      · rfl
      · rw [BitVec.le_def, BitVec.toNat_add_of_lt (by rw [hoffs', hsize]; omega), hoffs', hsize]
        exact Nat.le_add_left 1 (32 * j + 31)
    have hover : ¬ partOffset .little wrapped i ≤ partOffset .little wrapped j + 32 - 1 := by
      rw [BitVec.le_def, hoffs, hlast]
      omega
    have hname := wrapped_strcmp (by omega : i < 2 ^ 27) (by omega : j < 2 ^ 27) hj.ne'
    simp only [partCompare, wrapped_partSize, hover, decide_false, Bool.false_and, Bool.not_false,
      Bool.true_and, decide_eq_true_eq]
    exact hname
  have hmem : ¬ partOffset .little wrapped i + 32 > 0xffffffff := by
    rw [gt_iff_lt, BitVec.lt_def, hsum]
    have htop : (0xffffffff : BitVec 32).toNat = 0xffffffff := rfl
    omega
  have hup : ¬ partOffset .little wrapped i + 32 < partOffset .little wrapped i := by
    rw [BitVec.lt_def, hsum, hoffs]
    omega
  simp only [partVerify, wrapped_partSize, Bool.false_and, hmod, wrapped_nameVerify, hall,
    if_neg hmem, if_neg hup]
  decide

end Wrapped

end Plo.Lib.Ptable
