import Mathlib.Data.List.Infix
import Plo.Lib.Ptable

/-!
The comparison of strings in memory with the constants of the source. Both copies of the
functions, the one of the loader and the one of the SBI, are the same.
-/
namespace Plo.Lib

/-- The memory of a constant, from its first byte on. -/
def constant (s : List UInt8) : Nat → UInt8 := fun k => s.getD k 0

/-- The loop of `hal_strncmp` and `sbi_strncmp`, behind `k` bytes that are the same. -/
def strncmpLoop : Nat → Nat → (Nat → UInt8) → (Nat → UInt8) → Int
  | 0, _, _, _ => 0
  | n + 1, k, us1, us2 =>
    if us1 k ≠ 0 ∧ us2 k ≠ 0 ∧ us1 k = us2 k then strncmpLoop n (k + 1) us1 us2
    else if us1 k = 0 ∧ us2 k = 0 then 0
    else if us1 k < us2 k then -k - 1
    else k + 1

def strncmp (s1 s2 : Nat → UInt8) (count : Nat) : Int := strncmpLoop count 0 s1 s2

/-- A string with these bytes, and its end, lies in memory. -/
def HoldsString (mem : Nat → UInt8) (s : List UInt8) : Prop :=
  ∀ k, k ≤ s.length → mem k = constant s k

section
variable {mem : Nat → UInt8} {s : List UInt8}

theorem constant_of_lt {k : Nat} (hk : k < s.length) : constant s k = s[k] := by
  rw [constant, List.getD_eq_getElem?_getD, List.getElem?_eq_getElem hk, Option.getD_some]

theorem constant_end : constant s s.length = 0 := by
  rw [constant, List.getD_eq_getElem?_getD, List.getElem?_eq_none (Nat.le_refl _), Option.getD_none]

theorem constant_ne_zero (hs : 0 ∉ s) {k : Nat} (hk : k < s.length) : constant s k ≠ 0 := by
  rw [constant_of_lt hk]
  exact fun h => hs (h ▸ List.getElem_mem hk)

theorem constant_eq_zero_iff (hs : 0 ∉ s) {k : Nat} : constant s k = 0 ↔ s.length ≤ k := by
  constructor
  · intro h
    by_contra hlt
    exact constant_ne_zero hs (Nat.lt_of_not_le hlt) h
  · intro h
    rw [constant, List.getD_eq_getElem?_getD, List.getElem?_eq_none h, Option.getD_none]

/-- The comparison finds no difference exactly if there is none before the count or the end of
both strings. -/
theorem strncmpLoop_eq_zero_iff {us1 us2 : Nat → UInt8} (n k : Nat) :
    strncmpLoop n k us1 us2 = 0 ↔
      ∃ m, m ≤ n ∧ (∀ i < m, us1 (k + i) ≠ 0 ∧ us1 (k + i) = us2 (k + i)) ∧
        (m = n ∨ us1 (k + m) = 0 ∧ us2 (k + m) = 0) := by
  induction n generalizing k with
  | zero => exact iff_of_true rfl ⟨0, Nat.le_refl 0, nofun, Or.inl rfl⟩
  | succ n ih =>
      rw [strncmpLoop]
      by_cases hsame : us1 k ≠ 0 ∧ us2 k ≠ 0 ∧ us1 k = us2 k
      · rw [if_pos hsame, ih]
        constructor
        · rintro ⟨m, hm, heq, hend⟩
          refine ⟨m + 1, Nat.succ_le_succ hm, ?_, ?_⟩
          · intro i hi
            cases i with
            | zero => exact ⟨hsame.1, hsame.2.2⟩
            | succ i =>
                have hi' := heq i (Nat.lt_of_succ_lt_succ hi)
                rw [Nat.add_assoc, Nat.add_comm 1 i] at hi'
                exact hi'
          · rw [Nat.add_assoc, Nat.add_comm 1 m] at hend
            exact hend.imp_left (congrArg (· + 1))
        · rintro ⟨m, hm, heq, hend⟩
          cases m with
          | zero =>
              rcases hend with h | ⟨h, -⟩
              · exact absurd h (Nat.succ_ne_zero n).symm
              · exact absurd h hsame.1
          | succ m =>
              refine ⟨m, Nat.le_of_succ_le_succ hm, ?_, ?_⟩
              · intro i hi
                rw [Nat.add_assoc, Nat.add_comm 1 i]
                exact heq (i + 1) (Nat.succ_lt_succ hi)
              · rw [Nat.add_assoc, Nat.add_comm 1 m]
                exact hend.imp_left Nat.succ.inj
      · rw [if_neg hsame]
        by_cases hend : us1 k = 0 ∧ us2 k = 0
        · rw [if_pos hend]
          exact iff_of_true rfl ⟨0, Nat.zero_le _, nofun, Or.inr hend⟩
        · rw [if_neg hend]
          have hne : (if us1 k < us2 k then -(k : Int) - 1 else k + 1) ≠ 0 := by
            split <;> omega
          refine iff_of_false hne ?_
          rintro ⟨m, hm, heq, hlast⟩
          cases m with
          | zero =>
              rcases hlast with h | h
              · exact absurd h (Nat.succ_ne_zero n).symm
              · exact hend h
          | succ m =>
              obtain ⟨hfirst, hfirst'⟩ := heq 0 (Nat.succ_pos m)
              exact hsame ⟨hfirst, hfirst' ▸ hfirst, hfirst'⟩

theorem strncmp_comm_zero (us1 us2 : Nat → UInt8) (n : Nat) :
    strncmp us1 us2 n = 0 ↔ strncmp us2 us1 n = 0 := by
  have hcomm (a b : Nat → UInt8) (h : strncmp a b n = 0) : strncmp b a n = 0 := by
    rw [strncmp, strncmpLoop_eq_zero_iff] at h ⊢
    obtain ⟨m, hm, heq, hend⟩ := h
    refine ⟨m, hm, ?_, hend.imp_right And.symm⟩
    intro i hi
    exact ⟨(heq i hi).2 ▸ (heq i hi).1, (heq i hi).2.symm⟩
  exact ⟨hcomm us1 us2, hcomm us2 us1⟩

/-- A string in memory begins with a constant. -/
theorem strncmp_prefix {pre : List UInt8} (hmem : HoldsString mem s) (hpre : 0 ∉ pre) :
    strncmp (constant pre) mem pre.length = 0 ↔ pre <+: s := by
  rw [strncmp, strncmpLoop_eq_zero_iff, List.prefix_iff_getElem]
  simp only [Nat.zero_add]
  constructor
  · rintro ⟨m, hm, heq, hend⟩
    have hm' : m = pre.length := by
      rcases hend with h | ⟨h, -⟩
      · exact h
      · exact Nat.le_antisymm hm ((constant_eq_zero_iff hpre).mp h)
    subst hm'
    have hlt (i : Nat) (hi : i < pre.length) : i < s.length := by
      by_contra hge
      have hlast := heq s.length (by omega)
      rw [hmem _ (Nat.le_refl _), constant_end] at hlast
      exact hlast.1 hlast.2
    refine ⟨?_, ?_⟩
    · by_contra hlen
      exact absurd (hlt s.length (by omega)) (Nat.lt_irrefl _)
    · intro i hi
      have hbyte := (heq i hi).2
      rw [constant_of_lt hi, hmem i (Nat.le_of_lt (hlt i hi)), constant_of_lt (hlt i hi)] at hbyte
      exact hbyte
  · rintro ⟨hlen, hbytes⟩
    refine ⟨pre.length, Nat.le_refl _, ?_, Or.inl rfl⟩
    intro i hi
    refine ⟨constant_ne_zero hpre hi, ?_⟩
    rw [constant_of_lt hi, hbytes i hi, hmem i (by omega), constant_of_lt (by omega)]

/-- A string in memory is a constant. -/
theorem strcmp_constant (hs : 0 ∉ s) :
    strcmp (s.length + 1) mem (constant s) = 0 ↔ HoldsString mem s := by
  induction s generalizing mem with
  | nil =>
      have hend (k : Nat) (hk : k ≤ ([] : List UInt8).length) : k = 0 := Nat.le_zero.mp hk
      by_cases hfirst : mem 0 = 0
      · exact iff_of_true (by rw [strcmp, if_pos hfirst]; rfl) fun k hk => hend k hk ▸ hfirst
      · refine iff_of_false ?_ fun h => hfirst (h 0 (Nat.le_refl 0))
        have hconst : ¬mem 0 = constant [] 0 := hfirst
        rw [strcmp, if_neg hfirst, if_neg hconst]
        split <;> decide
  | cons c s ih =>
      have hc : c ≠ 0 := fun h => hs (h ▸ List.mem_cons_self)
      have hconst : constant (c :: s) 0 = c := rfl
      rw [List.length_cons, strcmp, hconst]
      by_cases hfirst : mem 0 = c
      · rw [if_neg (hfirst ▸ hc), if_pos hfirst]
        refine (@ih (fun k => mem (k + 1)) fun h => hs (List.mem_cons_of_mem c h)).trans ?_
        constructor
        · intro h k hk
          cases k with
          | zero => exact hfirst
          | succ k => exact h k (Nat.le_of_succ_le_succ hk)
        · intro h k hk
          exact h (k + 1) (Nat.succ_le_succ hk)
      · refine iff_of_false ?_ fun h => hfirst (h 0 (Nat.zero_le _))
        rw [if_neg hc, if_neg hfirst]
        split
        · decide
        · split <;> decide

end

end Plo.Lib
