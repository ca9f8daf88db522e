import Mathlib.Algebra.BigOperators.Group.List.Basic
import Mathlib.Order.Lattice.Nat
import Plo.Base.Window
import Plo.Cmds.Kernel

/-!
The loops that copy a file into memory. They move on by what a read gave, and a read
that gives nothing is made again: the loops end exactly when the device does not stop
giving bytes, without an error, before it has given all that were asked for.
-/
namespace Plo.Cmds
variable {w : Nat}

/-- The bytes a read gives are those of the file from the offset on that was asked for. -/
def fileReads (file : Nat → UInt8) : Nat → List Answer → List ReadResult
  | _, [] => []
  | offs, .error res :: answers => .error res :: fileReads file offs answers
  | offs, .ok len :: answers => .ok (slice file offs len) :: fileReads file (offs + len) answers

/-- Every answer from offset `offs` on is an error or at most what was asked for. -/
def AnswersFit (sz : BitVec w) : Nat → List Answer → Prop
  | _, [] => True
  | _, .error res :: _ => res < 0
  | offs, .ok len :: answers =>
    offs < sz.toNat → len ≤ min SIZE_MSG_BUFF (sz.toNat - offs) ∧ AnswersFit sz (offs + len) answers

def Answer.length : Answer → Nat
  | .error _ => 0
  | .ok len => len

def Answer.isOk : Answer → Bool
  | .error _ => false
  | .ok _ => true

/-- How many bytes the answers give together. -/
def given (answers : List Answer) : Nat := (answers.map Answer.length).sum

theorem given_append (xs ys : List Answer) : given (xs ++ ys) = given xs + given ys := by
  simp [given]

section Copy
variable {sz : BitVec w} (file : Nat → UInt8)

/-- The copy waits for another answer exactly when there was no error and bytes are missing. -/
theorem cp2ent_waits_iff (src : Nat) (offs : BitVec w) {answers : List Answer}
    (hle : offs.toNat ≤ sz.toNat) (hfit : AnswersFit sz offs.toNat answers) :
    (cp2ent sz offs (fileReads file src answers)).2 = none ↔
      (∀ a ∈ answers, a.isOk = true) ∧ offs.toNat + given answers < sz.toNat := by
  have hsz := sz.isLt
  induction answers generalizing offs src with
  | nil =>
      simp only [fileReads, cp2ent, BitVec.lt_def]
      split <;> simp_all [given]
  | cons answer answers ih =>
      cases answer with
      | error res =>
          simp only [fileReads, cp2ent, BitVec.lt_def]
          split <;> simp [Answer.isOk]
      | ok len =>
          simp only [fileReads, cp2ent, BitVec.lt_def, length_slice]
          split
          · rename_i hlt
            obtain ⟨hlen, hrest⟩ := hfit hlt
            have hadd := toNat_add_ofNat_of_lt offs (show offs.toNat + len < 2 ^ w by omega)
            rw [← hadd] at hrest
            refine (ih (src + len) (offs + BitVec.ofNat w len) (by omega) hrest).trans ?_
            rw [hadd]
            simp [Answer.isOk, given, Answer.length, Nat.add_assoc]
          · rename_i hge
            refine iff_of_false nofun ?_
            rintro ⟨-, hlt⟩
            omega

/-- A copy that succeeds has stored the bytes of the file from the first offset on. -/
theorem cp2ent_copies {src : Nat} (offs : BitVec w) {answers : List Answer} {copied : List UInt8}
    (hle : offs.toNat ≤ sz.toNat) (hfit : AnswersFit sz offs.toNat answers)
    (h : cp2ent sz offs (fileReads file src answers) = (copied, some EOK)) :
    copied = slice file src (sz.toNat - offs.toNat) := by
  have hsz := sz.isLt
  induction answers generalizing offs src copied with
  | nil =>
      simp only [fileReads, cp2ent, BitVec.lt_def, Prod.mk.injEq] at h
      obtain ⟨rfl, hres⟩ := h
      split at hres
      · cases hres
      · rw [Nat.sub_eq_zero_of_le (by omega)]
        rfl
  | cons answer answers ih =>
      cases answer with
      | error res =>
          simp only [fileReads, cp2ent, BitVec.lt_def] at h
          split at h
          · cases h
            have hneg : EOK < 0 := hfit
            exact absurd hneg (by decide)
          · cases h
            rw [Nat.sub_eq_zero_of_le (by omega)]
            rfl
      | ok len =>
          simp only [fileReads, cp2ent, BitVec.lt_def, length_slice] at h
          split at h
          · rename_i hlt
            obtain ⟨hlen, hrest⟩ := hfit hlt
            have hadd := toNat_add_ofNat_of_lt offs (show offs.toNat + len < 2 ^ w by omega)
            rw [← hadd] at hrest
            simp only [Prod.mk.injEq] at h
            obtain ⟨rfl, hres⟩ := h
            have hcopied := ih (offs + BitVec.ofNat w len) (by omega) hrest (Prod.ext rfl hres)
            refine (congrArg (slice file src len ++ ·) hcopied).trans ?_
            rw [hadd, ← slice_add]
            congr 1
            omega
          · cases h
            rw [Nat.sub_eq_zero_of_le (by omega)]
            rfl

end Copy

/-- The first `n` answers of a device. -/
def firstAnswers (answers : Nat → Answer) (n : Nat) : List Answer := (List.range n).map answers

/-- Some number of answers is enough for `cmd_cp2ent` to return. -/
def CopyEnds (sz : BitVec w) (file : Nat → UInt8) (answers : Nat → Answer) : Prop :=
  ∃ n, (cp2ent sz 0 (fileReads file 0 (firstAnswers answers n))).2 ≠ none

/-- Some number of answers is enough for the loop over a segment that lies in the file
from offset `base` on. -/
def SegmentEnds (sz : BitVec w) (file : Nat → UInt8) (base : Nat) (answers : Nat → Answer) :
    Prop :=
  ∃ n, (segmentLoad sz (fileReads file base (firstAnswers answers n))).2 ≠ none

/-- Bytes are missing, there was no error, and no read gives anything any more. -/
def Starves (sz : BitVec w) (answers : Nat → Answer) : Prop :=
  ∃ n, (∀ i, i < n → (answers i).isOk = true) ∧ given (firstAnswers answers n) < sz.toNat ∧
    ∀ i, n ≤ i → answers i = .ok 0

section Endless
variable {sz : BitVec w} {answers : Nat → Answer}

theorem given_firstAnswers_succ (n : Nat) :
    given (firstAnswers answers (n + 1)) =
      given (firstAnswers answers n) + (answers n).length := by
  rw [firstAnswers, List.range_succ, List.map_append, given_append]
  simp [firstAnswers, given]

theorem given_firstAnswers_mono {m n : Nat} (h : m ≤ n) :
    given (firstAnswers answers m) ≤ given (firstAnswers answers n) := by
  have hmono : Monotone fun k => given (firstAnswers answers k) := by
    refine monotone_nat_of_le_succ fun k => ?_
    rw [given_firstAnswers_succ]
    exact Nat.le_add_right _ _
  exact hmono h

theorem forall_firstAnswers_isOk {n : Nat} :
    (∀ a ∈ firstAnswers answers n, a.isOk = true) ↔ ∀ i, i < n → (answers i).isOk = true := by
  simp [firstAnswers]

/-- Sums that stay below a bound stop growing. -/
theorem given_stops (hlt : ∀ n, given (firstAnswers answers n) < sz.toNat) :
    ∃ n, ∀ i, n ≤ i → (answers i).length = 0 := by
  let sums := Set.range fun n => given (firstAnswers answers n)
  have hbdd : BddAbove sums := by
    refine ⟨sz.toNat, ?_⟩
    rintro _ ⟨n, rfl⟩
    exact (hlt n).le
  obtain ⟨n, hn⟩ := Nat.sSup_mem (Set.range_nonempty _) hbdd
  have hmax : ∀ m, given (firstAnswers answers m) ≤ given (firstAnswers answers n) := by
    intro m
    exact (le_csSup hbdd ⟨m, rfl⟩).trans_eq hn.symm
  refine ⟨n, fun i hi => ?_⟩
  have hle := hmax (i + 1)
  rw [given_firstAnswers_succ] at hle
  have hge : given (firstAnswers answers n) ≤ given (firstAnswers answers i) :=
    given_firstAnswers_mono hi
  omega

theorem given_after_stop {n : Nat} (hstop : ∀ i, n ≤ i → answers i = .ok 0) (m : Nat) :
    given (firstAnswers answers m) ≤ given (firstAnswers answers n) := by
  induction m with
  | zero => exact Nat.zero_le _
  | succ m ih =>
      cases Nat.lt_or_ge m n with
      | inl hlt => exact given_firstAnswers_mono hlt
      | inr hge =>
          rw [given_firstAnswers_succ, hstop m hge]
          exact ih

/-- A loop that still waits after any number of answers is starved, and only such a one. -/
theorem waits_forever_iff (file : Nat → UInt8) (src : Nat)
    (hfit : ∀ n, AnswersFit sz 0 (firstAnswers answers n)) :
    (∀ n, (cp2ent sz 0 (fileReads file src (firstAnswers answers n))).2 = none) ↔
      Starves sz answers := by
  have hwaits : ∀ n, (cp2ent sz 0 (fileReads file src (firstAnswers answers n))).2 = none ↔
      (∀ i, i < n → (answers i).isOk = true) ∧ given (firstAnswers answers n) < sz.toNat := by
    intro n
    have h := cp2ent_waits_iff file src (0#w) (Nat.zero_le sz.toNat) (hfit n)
    rwa [forall_firstAnswers_isOk, BitVec.toNat_zero, Nat.zero_add] at h
  constructor
  · intro h
    obtain ⟨n, hn⟩ := given_stops fun n => ((hwaits n).1 (h n)).2
    refine ⟨n, ((hwaits n).1 (h n)).1, ((hwaits n).1 (h n)).2, fun i hi => ?_⟩
    have hok := ((hwaits (i + 1)).1 (h (i + 1))).1 i (Nat.lt_succ_self i)
    have hlen := hn i hi
    cases ha : answers i with
    | error res => simp [ha, Answer.isOk] at hok
    | ok len =>
        rw [ha] at hlen
        rw [show len = 0 from hlen]
  · rintro ⟨n, hok, hlt, hstop⟩ m
    rw [hwaits]
    refine ⟨fun i _ => ?_, (given_after_stop hstop m).trans_lt hlt⟩
    cases Nat.lt_or_ge i n with
    | inl hi => exact hok i hi
    | inr hi => rw [hstop i hi]; rfl

end Endless

/-- Both loops end, and a copy that succeeds is one of the whole entry, exactly when the
device does not starve them. -/
theorem load_loops_end_iff (sz : BitVec w) (file : Nat → UInt8) (base : Nat)
    (answers : Nat → Answer) (hfit : ∀ n, AnswersFit sz 0 (firstAnswers answers n)) :
    (CopyEnds sz file answers ∧ SegmentEnds sz file base answers ∧
      ∀ n copied, cp2ent sz 0 (fileReads file 0 (firstAnswers answers n)) = (copied, some EOK) →
        copied = slice file 0 sz.toNat) ↔
      ¬ Starves sz answers := by
  have hends : ∀ src, (∃ n, (cp2ent sz 0 (fileReads file src (firstAnswers answers n))).2 ≠ none) ↔
      ¬ Starves sz answers := by
    intro src
    rw [← waits_forever_iff file src hfit, not_forall]
  constructor
  · rintro ⟨hcopy, -, -⟩
    exact (hends 0).1 hcopy
  · intro hstarve
    refine ⟨(hends 0).2 hstarve, (hends base).2 hstarve, fun n copied h => ?_⟩
    have hcopied := cp2ent_copies file (0#w) (Nat.zero_le sz.toNat) (hfit n) h
    rwa [BitVec.toNat_zero, Nat.sub_zero] at hcopied

/-- A file of one byte. -/
theorem load_loops_end_iff_one_byte :
    CopyEnds (1 : BitVec 32) (fun _ => 7) (fun i => .ok (1 - i)) := by
  have hnone : ∀ n k, AnswersFit (1 : BitVec 32) 1 ((List.range' k n).map fun i => .ok (1 - i)) := by
    intro n k
    cases n with
    | zero => exact trivial
    | succ n => exact fun hlt => absurd hlt (by decide)
  have hfit : ∀ n, AnswersFit (1 : BitVec 32) 0 (firstAnswers (fun i => .ok (1 - i)) n) := by
    intro n
    rw [firstAnswers, List.range_eq_range']
    cases n with
    | zero => exact trivial
    | succ n => exact fun _ => ⟨by decide, hnone n 1⟩
  refine ((load_loops_end_iff 1 (fun _ => 7) 0 (fun i => .ok (1 - i)) hfit).2 ?_).1
  rintro ⟨n, -, hlt, hstop⟩
  cases n with
  | zero => exact absurd (hstop 0 (Nat.le_refl 0)) (by decide)
  | succ n =>
      have hone := (given_firstAnswers_mono (Nat.le_add_left 1 n)).trans_lt hlt
      exact absurd hone (by decide)

/-- A file that is empty although four bytes were announced. -/
theorem empty_file_starves_loops :
    (∀ n, AnswersFit (4 : BitVec 32) 0 (firstAnswers (fun _ => .ok 0) n)) ∧
      ¬ CopyEnds (4 : BitVec 32) (fun _ => 0) (fun _ => .ok 0) ∧
      ¬ SegmentEnds (4 : BitVec 32) (fun _ => 0) 0x40 (fun _ => .ok 0) := by
  have hfits : ∀ answers : List Answer, (∀ a ∈ answers, a = .ok 0) →
      AnswersFit (4 : BitVec 32) 0 answers := by
    intro answers h
    induction answers with
    | nil => exact trivial
    | cons answer answers ih =>
        rw [h answer (.head _)]
        exact fun _ => ⟨Nat.zero_le _, ih fun a ha => h a (.tail _ ha)⟩
  have hfit : ∀ n, AnswersFit (4 : BitVec 32) 0 (firstAnswers (fun _ => .ok 0) n) := by
    intro n
    refine hfits _ fun a ha => ?_
    obtain ⟨_, -, rfl⟩ := List.mem_map.1 ha
    rfl
  have hstarves : Starves (4 : BitVec 32) (fun _ => .ok 0) :=
    ⟨0, nofun, by decide, fun _ _ => rfl⟩
  refine ⟨hfit, ?_, ?_⟩
  · rintro ⟨n, hn⟩
    exact hn ((waits_forever_iff (fun _ => 0) 0 hfit).2 hstarves n)
  · rintro ⟨n, hn⟩
    exact hn ((waits_forever_iff (fun _ => 0) 0x40 hfit).2 hstarves n)

end Plo.Cmds
