import Plo.Base.Crc
import Plo.Lib.PtableSound

/-!
Damaged partition tables. Every header and every record ends in the CRC of what
comes before it, stored low end first, so that together they are a code word:
the register comes out the same for all of them. A burst of changes no longer
than the register changes what comes out.
-/
namespace Plo.Lib.Ptable

/-- Bit `k` from an offset on, the lowest bit of a byte first. -/
def bitAt (t : Image) (offs : Int) (k : Nat) : Bool := (t (offs + (k / 8 : Nat))).toBitVec.getLsbD (k % 8)

/-- The polynomial of `lib_crc32`. -/
abbrev poly : BitVec 32 := 0xedb88320

/-- The word after `len` bytes is their checksum. -/
def Checked (t : Image) (offs : Int) (len : Nat) : Prop :=
  wordAt .little t (offs + len) = ptableCrc32 t offs len

section Register

def byteBits (c : UInt8) : List Bool := (List.range 8).map c.toBitVec.getLsbD

theorem crc32Bit_eq (x : BitVec 32) : crc32Bit x = lfsr poly x := by
  have hlow : x &&& 1 ≠ 0 ↔ x.getLsbD 0 = true := by
    rw [show (1 : BitVec 32) = 1#32 by rfl, BitVec.and_one_eq_setWidth_ofBool_getLsbD]
    cases x.getLsbD 0 <;> decide
  simp only [crc32Bit, lfsr, hlow]

theorem crc32_eq (buf : List UInt8) (base : BitVec 32) :
    crc32 buf base = crcBits poly (buf.flatMap byteBits) base := by
  induction buf generalizing base with
  | nil => rfl
  | cons c buf ih =>
      have hword : (bitsWord (byteBits c) : BitVec 32) = c.toBitVec.setWidth 32 := by
        refine BitVec.eq_of_getLsbD_eq ?_
        intro i hi
        rw [getLsbD_bitsWord _ hi, BitVec.getLsbD_setWidth, decide_eq_true hi, Bool.true_and]
        by_cases h8 : i < 8
        · simp [byteBits, h8]
        · simp [byteBits, h8, BitVec.getLsbD_of_ge c.toBitVec i (by omega)]
      have hbyte : Nat.repeat crc32Bit 8 (base ^^^ c.toBitVec.setWidth 32) =
          crcBits poly (byteBits c) base := by
        rw [crcBits_eq poly (by simp [byteBits]), hword]
        simp only [byteBits, List.length_map, List.length_range, Nat.repeat, crc32Bit_eq]
        rfl
      rw [List.flatMap_cons, crcBits_append, ← hbyte, ← ih]
      rfl

theorem flatMap_byteBits (t : Image) (offs : Int) (len : Nat) :
    ((List.range len).map (bytesAt t offs)).flatMap byteBits =
      (List.range (8 * len)).map (bitAt t offs) := by
  induction len with
  | zero => rfl
  | succ len ih =>
      have hlast : byteBits (bytesAt t offs len) =
          (List.range 8).map (fun j => bitAt t offs (8 * len + j)) := by
        refine List.map_congr_left ?_
        intro j hj
        have hj8 := List.mem_range.mp hj
        rw [bitAt, bytesAt, show (8 * len + j) / 8 = len by omega,
          show (8 * len + j) % 8 = j by omega]
      rw [List.range_succ, List.map_append, List.flatMap_append, ih, List.map_singleton,
        List.flatMap_singleton, hlast, Nat.mul_succ, List.range_add, List.map_append, List.map_map]
      rfl

/-- The bits of a word stored low end first. -/
theorem bitsWord_word (t : Image) (offs : Int) (len : Nat) :
    (bitsWord ((List.range 32).map fun j => bitAt t offs (8 * len + j)) : BitVec 32) =
      wordAt .little t (offs + len) := by
  refine BitVec.eq_of_getLsbD_eq ?_
  intro i hi
  have hbit := getLsbD_leWord (bytesAt t (offs + len)) (i / 8) (i % 8) (by omega) (by omega)
  rw [Nat.div_add_mod] at hbit
  rw [getLsbD_bitsWord _ hi]
  simp only [wordAt, Endian.word, hbit]
  rw [List.getD_eq_getElem?_getD, List.getElem?_map, List.getElem?_range hi, Option.map_some,
    Option.getD_some, bitAt, bytesAt, show (8 * len + i) / 8 = len + i / 8 by omega,
    show (8 * len + i) % 8 = i % 8 by omega, Int.natCast_add, Int.add_assoc]

/-- What every code word leaves in the register. -/
def residue : BitVec 32 := (lfsr poly)^[32] 0xffffffff

theorem checked_iff (t : Image) (offs : Int) (len : Nat) :
    Checked t offs len ↔
      crcBits poly ((List.range (8 * (len + 4))).map (bitAt t offs)) 0xffffffff = residue := by
  have hones (r c : BitVec 32) : c = ~~~r ↔ r ^^^ c = 0xffffffff := by
    have hself (x : BitVec 32) : r ^^^ (r ^^^ x) = x := by
      rw [← BitVec.xor_assoc, BitVec.xor_self, BitVec.zero_xor]
    rw [← BitVec.xor_allOnes]
    constructor
    · intro h
      rw [h, hself]
      rfl
    · intro h
      rw [← hself c, h]
      rfl
  have hsplit : (List.range (8 * (len + 4))).map (bitAt t offs) =
      (List.range (8 * len)).map (bitAt t offs) ++
        (List.range 32).map (fun j => bitAt t offs (8 * len + j)) := by
    rw [Nat.mul_add, List.range_add, List.map_append, List.map_map]
    rfl
  rw [hsplit, crcBits_append, ← flatMap_byteBits, ← crc32_eq, crcBits_eq poly (by simp),
    bitsWord_word, List.length_map, List.length_range, residue, Checked, ptableCrc32, hones]
  constructor
  · intro h
    rw [h]
  · exact iterate_lfsr_inj poly (by decide) 32

/-- A burst of at most 32 bits in a code word is noticed. -/
theorem not_checked_of_burst {t t' : Image} {offs : Int} {len p : Nat} (h : Checked t offs len)
    (hburst : ∀ k < 8 * (len + 4), bitAt t offs k ≠ bitAt t' offs k → p ≤ k ∧ k < p + 32)
    (hne : ∃ k < 8 * (len + 4), bitAt t offs k ≠ bitAt t' offs k) : ¬ Checked t' offs len := by
  intro h'
  rw [checked_iff] at h h'
  generalize 8 * (len + 4) = n at *
  let d (k : Nat) : Bool := bitAt t offs k ^^ bitAt t' offs k
  have hd (k : Nat) : d k = true ↔ bitAt t offs k ≠ bitAt t' offs k := by simp [d]
  have hzero : crcBits poly ((List.range n).map d) 0 = 0 := by
    have hxor := crcBits_xor poly (List.range n) (bitAt t offs) (bitAt t' offs) 0xffffffff 0xffffffff
    rw [h, h', BitVec.xor_self, BitVec.xor_self] at hxor
    exact hxor
  obtain ⟨k, hk, hdiff⟩ := hne
  obtain ⟨hpk, hkp⟩ := hburst k hk hdiff
  -- the bits before, in and after the burst
  let m := min 32 (n - p)
  have hsplit : List.range n = List.range' 0 p ++ List.range' p m ++ List.range' (p + m) (n - p - m) := by
    have h1 := List.range'_append_1 (s := 0) (m := p) (n := m)
    have h2 := List.range'_append_1 (s := 0) (m := p + m) (n := n - p - m)
    rw [Nat.zero_add] at h1 h2
    rw [h1, h2, List.range_eq_range', show p + m + (n - p - m) = n by omega]
  have houter : ∀ k < n, ¬ (p ≤ k ∧ k < p + 32) → d k = false := by
    intro k hk hout
    rw [← Bool.not_eq_true, hd]
    exact fun hne => hout (hburst k hk hne)
  refine crcBits_burst poly (by decide) ((List.range' 0 p).map d) ((List.range' p m).map d)
    ((List.range' (p + m) (n - p - m)).map d)
    ?_ ?_ (by simp [m]) ?_ ?_
  · intro b hb
    obtain ⟨j, hj, rfl⟩ := List.mem_map.mp hb
    rw [List.mem_range'_1] at hj
    exact houter j (by omega) (by omega)
  · intro b hb
    obtain ⟨j, hj, rfl⟩ := List.mem_map.mp hb
    rw [List.mem_range'_1] at hj
    exact houter j (by omega) (by omega)
  · refine List.mem_map.mpr ⟨k, List.mem_range'_1.mpr ⟨hpk, by omega⟩, (hd k).mpr hdiff⟩
  · rw [← List.map_append, ← List.map_append, ← hsplit]
    exact hzero

end Register

section Verified
variable {t t' : Image} {memsz blksz : BitVec 32}

theorem checked_of_verify (h : verify .little t memsz blksz = true)
    (hversion : version t = PTABLE_VERSION) :
    Checked t 0 24 ∧ ∀ i < (count .little t).toNat, Checked t (partAt i) 28 := by
  have hcheck : (!(version t = 0 || version t = 1 || version t = 0xff)) = true := by
    rw [hversion]
    decide
  simp only [verify, hcheck, Bool.true_and, decide_eq_true_eq] at h
  split at h
  · cases h
  next hcrc =>
  refine ⟨not_not.mp hcrc, ?_⟩
  split at h
  · cases h
  split at h
  · cases h
  rw [List.all_eq_true] at h
  intro i hi
  have hpart := h i (List.mem_range.mpr hi)
  simp only [partVerify, Bool.true_and, decide_eq_true_eq] at hpart
  split at hpart
  · cases hpart
  next hcrc => exact not_not.mp hcrc

/-- The same number of partitions, with the same bytes in every record. -/
structure SameParts (t t' : Image) : Prop where
  count : count .little t' = count .little t
  parts : ∀ i < (Ptable.count .little t).toNat, ∀ k : Nat, k < 32 → t' (partAt i + k) = t (partAt i + k)

theorem deserialize_eq_neg_iff (t : Image) (memsz blksz : BitVec 32) :
    deserialize .little (some t) memsz blksz = -1 ↔ verify .little t memsz blksz ≠ true := by
  simp only [deserialize]
  split
  · next h => exact iff_of_false (by decide) (not_not.mpr h)
  · next h => exact iff_of_true rfl h

theorem count_congr (h : ∀ k : Nat, k < 4 → t' k = t k) :
    count .little t' = count .little t := by
  refine leWord_congr ?_
  intro k hk
  rw [bytesAt, bytesAt, Int.zero_add]
  exact h k hk

/-- An accepted table differs from one that was written in no burst of a record. -/
theorem rejected_of_burst (h : verify .little t memsz blksz = true)
    (hversion : version t = PTABLE_VERSION) {i p : Nat} (hi : i < (count .little t).toNat)
    (hother : ∀ a, a < partAt i ∨ partAt i + 32 ≤ a → t' a = t a)
    (hburst : ∀ k < 256, bitAt t (partAt i) k ≠ bitAt t' (partAt i) k → p ≤ k ∧ k < p + 32)
    (hne : ∃ k < 256, bitAt t (partAt i) k ≠ bitAt t' (partAt i) k) :
    deserialize .little (some t') memsz blksz = -1 := by
  rw [deserialize_eq_neg_iff]
  intro h'
  have hheader (a : Int) (ha : a < 28) : t' a = t a := by
    refine hother a (Or.inl ?_)
    simp only [partAt]
    omega
  have hversion' : version t' = PTABLE_VERSION := (hheader 4 (by decide)).trans hversion
  have hcount : count .little t' = count .little t :=
    count_congr fun k hk => hheader k (by omega)
  have hchecked := (checked_of_verify h hversion).2 i hi
  exact not_checked_of_burst hchecked hburst hne
    ((checked_of_verify h' hversion').2 i (hcount ▸ hi))

/-- The table with one bit changed. -/
def flipBit (t : Image) (a : Int) (j : Nat) : Image := fun b =>
  if b = a then ⟨(t a).toBitVec ^^^ (1#8 <<< j)⟩ else t b

theorem flipBit_of_ne {a b : Int} (h : b ≠ a) (j : Nat) : flipBit t a j b = t b := if_neg h

theorem bitAt_flipBit_iff (offs : Int) (a : Int) {j : Nat} (hj : j < 8) (k : Nat) :
    bitAt t offs k ≠ bitAt (flipBit t a j) offs k ↔ offs + (k / 8 : Nat) = a ∧ k % 8 = j := by
  by_cases ha : offs + (k / 8 : Nat) = a
  · have hk : k % 8 < 8 := Nat.mod_lt k (by decide)
    have hone : ∀ j < 8, ∀ i < 8, (1#8 <<< j).getLsbD i = decide (i = j) := by decide
    simp only [bitAt, flipBit, ha, if_true, BitVec.getLsbD_xor, hone j hj _ hk, true_and]
    cases (t a).toBitVec.getLsbD (k % 8) <;> simp
  · simp only [bitAt, flipBit, if_neg ha]
    exact iff_of_false (not_not.mpr rfl) fun h => ha h.1

theorem not_checked_flipBit {offs a : Int} {len j : Nat} (h : Checked t offs len) (hj : j < 8)
    (hlo : offs ≤ a) (hhi : a < offs + len + 4) : ¬ Checked (flipBit t a j) offs len := by
  have hdiff (k : Nat) : bitAt t offs k ≠ bitAt (flipBit t a j) offs k ↔
      k = 8 * (a - offs).toNat + j := by
    rw [bitAt_flipBit_iff offs a hj]
    omega
  refine not_checked_of_burst (p := 8 * (a - offs).toNat + j) h ?_ ?_
  · intro k _ hne
    rw [hdiff] at hne
    omega
  · exact ⟨_, by omega, (hdiff _).mpr rfl⟩

theorem flipBit_rejected_or_same (h : verify .little t memsz blksz = true)
    (hversion : version t = PTABLE_VERSION) (a : Int) {j : Nat} (hj : j < 8) :
    deserialize .little (some (flipBit t a j)) memsz blksz = -1 ∨
      SameParts t (flipBit t a j) := by
  obtain ⟨hheader, hparts⟩ := checked_of_verify h hversion
  by_cases hacc : verify .little (flipBit t a j) memsz blksz = true
  · refine Or.inr ?_
    have hsame : ¬ (0 ≤ a ∧ a < 28 ∧ a ≠ 4) := by
      intro ⟨hlo, hhi, hne⟩
      have hversion' : version (flipBit t a j) = PTABLE_VERSION :=
        (flipBit_of_ne hne.symm j).trans hversion
      exact not_checked_flipBit hheader hj hlo (by omega) (checked_of_verify hacc hversion').1
    have hcount : count .little (flipBit t a j) = count .little t :=
      count_congr fun k hk => flipBit_of_ne (by omega) j
    refine ⟨hcount, ?_⟩
    intro i hi k hk
    refine flipBit_of_ne ?_ j
    intro hak
    have hversion' : version (flipBit t a j) = PTABLE_VERSION := by
      refine (flipBit_of_ne ?_ j).trans hversion
      simp only [partAt] at hak
      omega
    exact not_checked_flipBit (hparts i hi) hj (by omega) (by omega)
      ((checked_of_verify hacc hversion').2 i (hcount ▸ hi))
  · exact Or.inl ((deserialize_eq_neg_iff _ _ _).mpr hacc)

end Verified

section Sealed
variable {t : Image} {memsz blksz : BitVec 32}

theorem setBytes_of_outside {offs a : Int} {bytes : List UInt8}
    (h : a < offs ∨ offs + bytes.length ≤ a) : setBytes t offs bytes a = t a := by
  simp only [setBytes]
  split
  · rw [List.getD_eq_default _ _ (by omega)]
  · rfl

theorem setWord_of_outside {e : Endian} {offs a : Int} {w : BitVec 32}
    (h : a < offs ∨ offs + 4 ≤ a) : setWord e t offs w a = t a :=
  setBytes_of_outside (by simpa using h)

/-- The loop over the records writes nothing but their checksums. -/
theorem foldl_setWord_of_outside (n : Nat) {a : Int}
    (h : ∀ i < n, a < partAt i + 28 ∨ partAt i + 32 ≤ a) :
    (List.range n).foldl
      (fun t i => setWord .little t (partAt i + 28) (ptableCrc32 t (partAt i) 28)) t a = t a := by
  induction n with
  | zero => rfl
  | succ n ih =>
      have hlast := h n (Nat.lt_succ_self n)
      rw [List.range_succ, List.foldl_append, List.foldl_cons, List.foldl_nil,
        setWord_of_outside (by omega)]
      exact ih fun i hi => h i (Nat.lt_succ_of_lt hi)

/-- What the version and the checksums leave alone. -/
theorem storeCrcs_of_outside {a : Int} (hversion : a ≠ 4) (hcrc : a < 24 ∨ 28 ≤ a)
    (hparts : ∀ i : Nat, a < partAt i + 28 ∨ partAt i + 32 ≤ a) :
    storeCrcs .little t a = t a := by
  simp only [storeCrcs]
  rw [foldl_setWord_of_outside _ fun i _ => hparts i, setWord_of_outside (by omega)]
  refine setBytes_of_outside ?_
  simp only [List.length_singleton]
  omega

theorem count_storeCrcs : count .little (storeCrcs .little t) = count .little t := by
  refine count_congr ?_
  intro k hk
  refine storeCrcs_of_outside (by omega) (by omega) ?_
  intro i
  simp only [partAt]
  omega

/-- The magic bytes go behind the records, or before the table. -/
theorem sealed_of_outside {a : Int} (h : 0 ≤ a ∧ a < 28 ∨ 28 ≤ a ∧
      a < ((ptableSize (count .little t)).toNat : Int) - 4 ∨
      0 ≤ a ∧ (ptableSize (count .little t)).toNat = 0) :
    sealed .little t a = storeCrcs .little t a := by
  simp only [sealed, count_storeCrcs]
  refine setBytes_of_outside ?_
  have hlen : ((ptableMagic.length : Nat) : Int) = 4 := rfl
  have hsize := toNat_ptableSize (count .little t)
  omega

theorem count_sealed : count .little (sealed .little t) = count .little t := by
  refine Eq.trans (count_congr ?_) count_storeCrcs
  intro k hk
  exact sealed_of_outside (Or.inl ⟨by omega, by omega⟩)

theorem version_sealed : version (sealed .little t) = PTABLE_VERSION := by
  rw [version, sealed_of_outside (Or.inl ⟨by decide, by decide⟩), storeCrcs, foldl_setWord_of_outside,
    setWord_of_outside (by decide)]
  · rfl
  · intro i _
    simp only [partAt]
    omega

/-- Of a record that passes the check, sealing changes the checksum alone. -/
theorem sealed_part (h : verify .little (sealed .little t) memsz blksz = true) {i k : Nat}
    (hi : i < (count .little t).toNat) (hk : k < 28) :
    sealed .little t (partAt i + k) = t (partAt i + k) := by
  have hsize := toNat_ptableSize (count .little t)
  have hcount := (count .little t).isLt
  have hwrap : ((count .little t).toNat + 1) % 2 ^ 27 ≠ 0 → (count .little t).toNat + 1 < 2 ^ 27 := by
    have hlt := count_lt h
    rwa [count_sealed] at hlt
  have hpos : partAt i = 28 + 32 * (i : Int) := rfl
  rw [sealed_of_outside, storeCrcs_of_outside (by omega) (by omega)]
  · intro j
    simp only [partAt]
    omega
  · by_cases hzero : ((count .little t).toNat + 1) % 2 ^ 27 = 0
    · exact Or.inr (Or.inr ⟨by omega, by omega⟩)
    · have hlt := hwrap hzero
      exact Or.inr (Or.inl ⟨by omega, by omega⟩)

end Sealed

/-- Images that differ in a record only differ in one of its bits. -/
theorem exists_bit_ne {t t' : Image} {offs : Int}
    (hother : ∀ a, a < offs ∨ offs + 32 ≤ a → t' a = t a) (hne : t' ≠ t) :
    ∃ k < 256, bitAt t offs k ≠ bitAt t' offs k := by
  by_contra hno
  have hsame : ∀ k < 256, bitAt t offs k = bitAt t' offs k := by
    intro k hk
    by_contra hdiff
    exact hno ⟨k, hk, hdiff⟩
  refine hne (funext fun a => ?_)
  by_cases ha : a < offs ∨ offs + 32 ≤ a
  · exact hother a ha
  · refine UInt8.eq_of_toBitVec_eq (BitVec.eq_of_getLsbD_eq ?_)
    intro j hj
    have hbit := hsame (8 * (a - offs).toNat + j) (by omega)
    have haddr : offs + (((8 * (a - offs).toNat + j) / 8 : Nat) : Int) = a := by omega
    rw [bitAt, bitAt, haddr, show (8 * (a - offs).toNat + j) % 8 = j by omega] at hbit
    exact hbit.symm

/-- A table that was written is accepted and read back; after a change of one bit
it is rejected or has the same partitions; after a change of a burst of at most 32
bits in a record it is rejected. -/
theorem serialized_table_is_guarded (t t' : Image) (memsz blksz : BitVec 32)
    (h : serialize .little (some t) memsz blksz = (some t', 0)) :
    (deserialize .little (some t') memsz blksz = 0 ∧ count .little t' = count .little t ∧
      ∀ i < (count .little t).toNat, ∀ k : Nat, k < 28 → t' (partAt i + k) = t (partAt i + k)) ∧
    (∀ a : Int, ∀ j < 8, deserialize .little (some (flipBit t' a j)) memsz blksz = -1 ∨
      SameParts t' (flipBit t' a j)) ∧
    ∀ t₁ : Image, ∀ i < (count .little t').toNat, ∀ p : Nat,
      (∀ a, a < partAt i ∨ partAt i + 32 ≤ a → t₁ a = t' a) →
      (∀ k < 256, bitAt t' (partAt i) k ≠ bitAt t₁ (partAt i) k → p ≤ k ∧ k < p + 32) →
      t₁ ≠ t' → deserialize .little (some t₁) memsz blksz = -1 := by
  have hverify : verify .little (sealed .little t) memsz blksz = true := by
    by_contra hno
    simp only [serialize, if_neg hno] at h
    cases h
  obtain rfl : sealed .little t = t' := by
    simp only [serialize, Prod.mk.injEq, Option.some.injEq] at h
    exact h.1
  refine ⟨⟨?_, count_sealed, fun i hi k hk => sealed_part hverify hi hk⟩, ?_, ?_⟩
  · simp only [deserialize, if_pos hverify]
  · intro a j hj
    exact flipBit_rejected_or_same hverify version_sealed a hj
  · intro t₁ i hi p hother hburst hne
    exact rejected_of_burst hverify version_sealed hi hother hburst (exists_bit_ne hother hne)

/-- A table with one partition of a block. -/
def onePart : Image := fun k => if k = 0 then 1 else if k = 28 then 0x61 else if k = 41 then 2 else 0

theorem serialized_table_is_guarded_onePart :
    deserialize .little (some (sealed .little onePart)) 0x1000 0x200 = 0 ∧
      (deserialize .little (some (flipBit (sealed .little onePart) 36 1)) 0x1000 0x200 = -1 ∨
        SameParts (sealed .little onePart) (flipBit (sealed .little onePart) 36 1)) := by
  have hverify : verify .little (sealed .little onePart) 0x1000 0x200 = true := by decide +kernel
  have hok : serialize .little (some onePart) 0x1000 0x200 = (some (sealed .little onePart), 0) := by
    simp only [serialize, if_pos hverify]
  have hguard := serialized_table_is_guarded onePart _ 0x1000 0x200 hok
  exact ⟨hguard.1.1, hguard.2.1 36 1 (by decide)⟩

end Plo.Lib.Ptable
