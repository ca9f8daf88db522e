import Plo.Cmds.Memcrypt

/-!
Keys given as digits. Each pair of characters goes to the general reader of numbers,
which leaves out a prefix of its own, so that a pair that is only such a prefix is a
byte of value zero.
-/
namespace Plo.Cmds.Memcrypt
open Lib

/-- The value of a hexadecimal digit. -/
def hexDigit (c : UInt8) : Option Nat :=
  if 0x30 ≤ c ∧ c ≤ 0x39 then some (c.toNat - 0x30)
  else if 0x61 ≤ c ∧ c ≤ 0x66 then some (c.toNat - 0x61 + 10)
  else if 0x41 ≤ c ∧ c ≤ 0x46 then some (c.toNat - 0x41 + 10)
  else none

def pairs : List UInt8 → List (UInt8 × UInt8)
  | c :: c' :: rest => (c, c') :: pairs rest
  | _ => []

/-- The byte that two digits describe. -/
def pairByte (p : UInt8 × UInt8) : Option UInt8 := do
  return UInt8.ofNat ((← hexDigit p.1) * 16 + (← hexDigit p.2))

/-- The string describes at least one byte and at most `maxSize` bytes. -/
def Fits (string : List UInt8) (maxSize : Nat) : Prop :=
  string.length ≠ 0 ∧ string.length % 2 = 0 ∧ string.length / 2 ≤ maxSize

instance (string : List UInt8) (maxSize : Nat) : Decidable (Fits string maxSize) :=
  inferInstanceAs (Decidable (_ ∧ _ ∧ _))

/-- The key that a string of digits describes, behind its prefix. -/
def hexKey (string : CString) (maxSize : Nat) : Option (List UInt8) :=
  if Fits (withoutPrefix string) maxSize then (pairs (withoutPrefix string)).mapM pairByte else none

/-- A string is accepted just when it describes a key, which is then what is stored. -/
structure ReadsKey (string : CString) (maxSize : Nat) : Prop where
  key : ∀ key, hexKey string maxSize = some key →
    getHexBuffer string maxSize = ((key.length : Int), key)
  accepted : 0 ≤ (getHexBuffer string maxSize).1 → ∃ key, hexKey string maxSize = some key

/-- `0x` or `0X`. -/
def PrefixPair (p : UInt8 × UInt8) : Prop := p.1 = 0x30 ∧ p.2 ||| 0x20 = 0x78

instance : DecidablePred PrefixPair := fun _ => inferInstanceAs (Decidable (_ ∧ _))

/-- A string of a length that fits, of pairs that are two digits or a prefix, and of the
latter at least one. -/
structure HidesPrefix (string : CString) (maxSize : Nat) : Prop where
  fits : Fits (withoutPrefix string) maxSize
  pairs : ∀ p ∈ pairs (withoutPrefix string), (pairByte p).isSome ∨ PrefixPair p
  hidden : ∃ p ∈ Memcrypt.pairs (withoutPrefix string), PrefixPair p

theorem forall_byte {P : UInt8 → Prop} (h : ∀ n : Fin 256, P (UInt8.ofNat n)) (c : UInt8) :
    P c := by
  have hc := h ⟨c.toNat, c.toNat_lt⟩
  rwa [UInt8.ofNat_toNat] at hc

/-- The digits of base 16 are the characters that the reader of numbers goes on with. -/
theorem hexDigit_eq (c : UInt8) : hexDigit c =
    if isdigit c || isalpha c then if digitValue c ≥ 16 then none else some (digitValue c)
    else none := by
  refine forall_byte (P := fun c => hexDigit c =
    if isdigit c || isalpha c then if digitValue c ≥ 16 then none else some (digitValue c)
    else none) ?_ c
  decide +kernel

theorem hexDigit_lt {c : UInt8} {d : Nat} (h : hexDigit c = some d) : d < 16 := by
  rw [hexDigit_eq] at h
  split at h
  · split at h
    · cases h
    · next hlt =>
      cases h
      omega
  · cases h

section Pair
variable {w : Nat} {c c' : UInt8} {d : Nat}

theorem strtoulDigits_digit (h : hexDigit c = some d) (v : BitVec w) (cs : List UInt8) :
    strtoulDigits 16 v (c :: cs) =
      strtoulDigits 16 (v * BitVec.ofNat w 16 + BitVec.ofNat w d) cs := by
  rw [hexDigit_eq] at h
  split at h
  · next halnum =>
    split at h
    · cases h
    · next hsmall =>
      cases h
      rw [strtoulDigits, if_pos halnum, if_neg hsmall]
  · cases h

theorem strtoulDigits_stop (h : hexDigit c = none) (v : BitVec w) (cs : List UInt8) :
    strtoulDigits 16 v (c :: cs) = (v, c :: cs) := by
  rw [hexDigit_eq] at h
  rw [strtoulDigits]
  split
  · next halnum =>
    rw [if_pos halnum] at h
    split at h
    · next hlarge => rw [if_pos hlarge]
    · cases h
  · rfl

theorem ofBuffer_pair (hc : c ≠ 0) (hc' : c' ≠ 0) :
    (CString.ofBuffer [c, c', 0]).bytes = [c, c'] := by
  simp [CString.ofBuffer, List.takeWhile, hc, hc']

theorem strtoul_prefixPair (hc : c ≠ 0) (hc' : c' ≠ 0) (h : PrefixPair (c, c')) :
    (strtoul (.ofBuffer [c, c', 0]) 16 : BitVec w × List UInt8) = (0, []) := by
  rw [strtoul, ofBuffer_pair hc hc', if_pos ⟨Or.inl rfl, h⟩]
  rfl

theorem strtoul_pair (hc : c ≠ 0) (hc' : c' ≠ 0) (h : ¬PrefixPair (c, c')) :
    (strtoul (.ofBuffer [c, c', 0]) 16 : BitVec w × List UInt8) = strtoulDigits 16 0 [c, c'] := by
  have hbase : ¬16 = 0 := by decide
  rw [strtoul, ofBuffer_pair hc hc', if_neg fun htaken => h htaken.2,
    if_neg fun hzero => hbase hzero.1, if_neg hbase]

end Pair

/-- What the reader of numbers makes of a pair. -/
def codeByte (p : UInt8 × UInt8) : Option UInt8 := if PrefixPair p then some 0 else pairByte p

theorem hexDigit_x {c : UInt8} (h : c ||| 0x20 = 0x78) : hexDigit c = none := by
  refine forall_byte (P := fun c => c ||| 0x20 = 0x78 → hexDigit c = none) ?_ c h
  decide +kernel

theorem PrefixPair.no_digits {p : UInt8 × UInt8} (h : PrefixPair p) : pairByte p = none := by
  rw [pairByte, hexDigit_x h.2]
  cases hexDigit p.1 <;> rfl

theorem hexPairs_cons {c c' : UInt8} (hc : c ≠ 0) (hc' : c' ≠ 0) (string : List UInt8) :
    (∀ b, codeByte (c, c') = some b →
        hexPairs (c :: c' :: string) = (b :: (hexPairs string).1, (hexPairs string).2)) ∧
      (codeByte (c, c') = none → (hexPairs (c :: c' :: string)).2 = false) := by
  rw [hexPairs, codeByte]
  by_cases hpre : PrefixPair (c, c')
  · rw [strtoul_prefixPair hc hc' hpre, if_pos hpre]
    refine ⟨fun b hb => ?_, fun hnone => by cases hnone⟩
    cases hb
    rfl
  · rw [strtoul_pair hc hc' hpre, if_neg hpre, pairByte]
    cases hd : hexDigit c with
    | none =>
      rw [strtoulDigits_stop hd]
      exact ⟨fun b hb => (by cases hb), fun _ => rfl⟩
    | some d =>
      rw [strtoulDigits_digit hd]
      cases hd' : hexDigit c' with
      | none =>
        rw [strtoulDigits_stop hd']
        exact ⟨fun b hb => (by cases hb), fun _ => rfl⟩
      | some d' =>
        have hlt := hexDigit_lt hd
        have hlt' := hexDigit_lt hd'
        have hvalue : ((0 * BitVec.ofNat 32 16 + BitVec.ofNat 32 d) * BitVec.ofNat 32 16 +
            BitVec.ofNat 32 d').toNat = d * 16 + d' := by
          simp
          omega
        rw [strtoulDigits_digit hd', strtoulDigits]
        refine ⟨fun b hb => ?_, fun hnone => by cases hnone⟩
        cases hb
        simp only [ne_eq, not_true_eq_false, false_or, hvalue]
        exact if_neg (by omega)

/-- The loop over a string is the reader of numbers on its pairs. -/
theorem hexPairs_spec (string : List UInt8) (hnul : 0 ∉ string) :
    (∀ out, (pairs string).mapM codeByte = some out → hexPairs string = (out, true)) ∧
      ((pairs string).mapM codeByte = none → (hexPairs string).2 = false) := by
  fun_induction pairs string with
  | case1 c c' rest ih =>
      simp only [List.mem_cons, not_or] at hnul
      obtain ⟨hread, hstop⟩ := hexPairs_cons (Ne.symm hnul.1) (Ne.symm hnul.2.1) rest
      obtain ⟨hrest, hbad⟩ := ih hnul.2.2
      rw [List.mapM_cons]
      cases hb : codeByte (c, c') with
      | none => exact ⟨fun out hout => (by cases hout), fun _ => hstop hb⟩
      | some b =>
        rw [hread b hb]
        cases hmap : (pairs rest).mapM codeByte with
        | none => exact ⟨fun out hout => (by cases hout), fun _ => hbad hmap⟩
        | some out' =>
          rw [hrest out' hmap]
          refine ⟨fun out hout => ?_, fun hnone => by cases hnone⟩
          cases hout
          rfl
  | case2 string hshort =>
      refine ⟨fun out hout => ?_, fun hnone => by cases hnone⟩
      cases hout
      match string, hshort with
      | [], _ => rfl
      | [_], _ => rfl
      | c :: c' :: rest, hshort => exact absurd rfl (hshort c c' rest)

theorem length_pairs (string : List UInt8) : (pairs string).length = string.length / 2 := by
  fun_induction pairs string with
  | case1 c c' rest ih =>
      rw [List.length_cons, ih, List.length_cons, List.length_cons]
      omega
  | case2 string hshort =>
      match string, hshort with
      | [], _ => rfl
      | [_], _ => exact (Nat.div_eq_of_lt (Nat.lt_succ_self 1)).symm
      | c :: c' :: rest, hshort => exact absurd rfl (hshort c c' rest)

theorem length_of_mapM {f : UInt8 × UInt8 → Option UInt8} {ps : List (UInt8 × UInt8)}
    {out : List UInt8} (h : ps.mapM f = some out) : out.length = ps.length := by
  induction ps generalizing out with
  | nil =>
    cases h
    rfl
  | cons p ps ih =>
    rw [List.mapM_cons] at h
    obtain ⟨b, _, h⟩ := Option.bind_eq_some_iff.mp h
    obtain ⟨bs, hbs, h⟩ := Option.bind_eq_some_iff.mp h
    cases h
    exact congrArg (· + 1) (ih hbs)

/-- A string is accepted just when it fits and the reader of numbers takes its pairs. -/
theorem getHexBuffer_spec (string : CString) (maxSize : Nat) :
    (∀ out, Fits (withoutPrefix string) maxSize →
        (pairs (withoutPrefix string)).mapM codeByte = some out →
        getHexBuffer string maxSize = ((out.length : Int), out)) ∧
      (0 ≤ (getHexBuffer string maxSize).1 → Fits (withoutPrefix string) maxSize ∧
        ((pairs (withoutPrefix string)).mapM codeByte).isSome) := by
  have hnul : 0 ∉ withoutPrefix string := by
    rw [withoutPrefix]
    split
    · exact fun h => string.noNul (List.mem_of_mem_drop h)
    · exact string.noNul
  obtain ⟨hread, hstop⟩ := hexPairs_spec (withoutPrefix string) hnul
  have hlen := length_pairs (withoutPrefix string)
  rw [getHexBuffer]
  by_cases hfits : Fits (withoutPrefix string) maxSize
  · have hpass : ¬((withoutPrefix string).length = 0 ∨ (withoutPrefix string).length % 2 ≠ 0 ∨
        (withoutPrefix string).length / 2 > maxSize) := by
      have hall := hfits
      rw [Fits] at hall
      omega
    simp only [if_neg hpass]
    cases hmap : (pairs (withoutPrefix string)).mapM codeByte with
    | none =>
      have hfalse := hstop hmap
      refine ⟨fun out _ hout => (by cases hout), fun hret => ?_⟩
      split at hret
      · next hpairs =>
        rw [hpairs] at hfalse
        cases hfalse
      · exact absurd (show (0 : Int) ≤ -EINVAL from hret) (by decide)
    | some key =>
      rw [hread key hmap, ← hlen, ← length_of_mapM hmap]
      refine ⟨fun out _ hout => ?_, fun _ => ⟨hfits, rfl⟩⟩
      cases hout
      rfl
  · have hrefused : (withoutPrefix string).length = 0 ∨ (withoutPrefix string).length % 2 ≠ 0 ∨
        (withoutPrefix string).length / 2 > maxSize := by
      rw [Fits] at hfits
      omega
    simp only [if_pos hrefused]
    exact ⟨fun out hfit => absurd hfit hfits, fun hret => absurd hret (by decide)⟩

theorem mapM_codeByte_of_no_prefix {ps : List (UInt8 × UInt8)} (h : ∀ p ∈ ps, ¬PrefixPair p) :
    ps.mapM codeByte = ps.mapM pairByte := by
  induction ps with
  | nil => rfl
  | cons p ps ih =>
    rw [List.mapM_cons, List.mapM_cons, ih fun q hq => h q (List.mem_cons_of_mem p hq), codeByte,
      if_neg (h p List.mem_cons_self)]

theorem mapM_isSome_iff {f : UInt8 × UInt8 → Option UInt8} (ps : List (UInt8 × UInt8)) :
    (ps.mapM f).isSome ↔ ∀ p ∈ ps, (f p).isSome := by
  induction ps with
  | nil => simp
  | cons p ps ih =>
    rw [List.mapM_cons, List.forall_mem_cons, ← ih]
    cases f p with
    | none => simp
    | some b => cases ps.mapM f <;> simp

theorem codeByte_isSome_iff (p : UInt8 × UInt8) :
    (codeByte p).isSome ↔ (pairByte p).isSome ∨ PrefixPair p := by
  rw [codeByte]
  split
  · next hpre => exact iff_of_true rfl (.inr hpre)
  · next hpre => exact ⟨.inl, fun h => h.resolve_right hpre⟩

theorem hexKey_length {string : CString} {maxSize : Nat} {key : List UInt8}
    (h : hexKey string maxSize = some key) : key.length ≤ maxSize := by
  rw [hexKey] at h
  split at h
  · next hfits =>
    rw [length_of_mapM h, length_pairs]
    exact hfits.2.2
  · cases h

/-- A prefix among the pairs is no part of a key. -/
theorem hexKey_of_hidden {string : CString} {maxSize : Nat}
    (h : ∃ p ∈ pairs (withoutPrefix string), PrefixPair p) : hexKey string maxSize = none := by
  rw [hexKey]
  split
  · obtain ⟨p, hp, hpre⟩ := h
    rw [← Option.not_isSome_iff_eq_none, mapM_isSome_iff]
    intro hall
    have hdigits := hall p hp
    rw [hpre.no_digits] at hdigits
    cases hdigits
  · rfl

/-- A string is read as the key it describes, and refused when it describes none, just
when it hides no prefix among its pairs. -/
theorem getHexBuffer_reads_iff (string : CString) (maxSize : Nat) :
    ReadsKey string maxSize ↔ ¬HidesPrefix string maxSize := by
  obtain ⟨hread, haccepted⟩ := getHexBuffer_spec string maxSize
  constructor
  · intro hreads hhides
    -- the string is accepted, although one of its pairs describes no byte
    have hall : ((pairs (withoutPrefix string)).mapM codeByte).isSome :=
      (mapM_isSome_iff _).mpr fun p hp => (codeByte_isSome_iff p).mpr (hhides.pairs p hp)
    obtain ⟨out, hout⟩ := Option.isSome_iff_exists.mp hall
    have hret : 0 ≤ (getHexBuffer string maxSize).1 := by
      rw [hread out hhides.fits hout]
      exact Int.natCast_nonneg _
    obtain ⟨key, hkey⟩ := hreads.accepted hret
    rw [hexKey_of_hidden hhides.hidden] at hkey
    cases hkey
  · intro hhides
    by_cases hfits : Fits (withoutPrefix string) maxSize
    · by_cases hhidden : ∃ p ∈ pairs (withoutPrefix string), PrefixPair p
      · have hbad : ¬0 ≤ (getHexBuffer string maxSize).1 := fun hret =>
          hhides ⟨hfits, fun p hp => (codeByte_isSome_iff p).mp
            ((mapM_isSome_iff _).mp (haccepted hret).2 p hp), hhidden⟩
        refine ⟨fun key hkey => ?_, fun hret => absurd hret hbad⟩
        rw [hexKey_of_hidden hhidden] at hkey
        cases hkey
      · have hsame := mapM_codeByte_of_no_prefix fun p hp hpre => hhidden ⟨p, hp, hpre⟩
        rw [hsame] at hread haccepted
        constructor
        · intro key hkey
          rw [hexKey, if_pos hfits] at hkey
          exact hread key hfits hkey
        · intro hret
          rw [hexKey, if_pos hfits]
          exact Option.isSome_iff_exists.mp (haccepted hret).2
    · constructor
      · intro key hkey
        rw [hexKey, if_neg hfits] at hkey
        cases hkey
      · intro hret
        exact absurd (haccepted hret).1 hfits

/-- `x:0x0x` for a key of one byte. -/
theorem prefix_read_as_key : ¬∀ (string : CString) (maxSize : Nat), ReadsKey string maxSize := by
  intro h
  have hreads := h (.ofBuffer [0x30, 0x78, 0x30, 0x78]) 64
  obtain ⟨key, hkey⟩ := hreads.accepted (by decide +kernel)
  have hnone : hexKey (.ofBuffer [0x30, 0x78, 0x30, 0x78]) 64 = none := by decide +kernel
  rw [hnone] at hkey
  cases hkey

end Plo.Cmds.Memcrypt
