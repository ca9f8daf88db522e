import Plo.Base.Patch

/-!
An ideal NOR flash memory: erasing a piece of it sets the piece to ones,
programming clears bits. Bytes programmed over an erased piece are stored as they
are, in whatever pages they come.
-/
namespace Plo.Nor

def erased : UInt8 := 0xff

/-- The memory with the piece of size `sz` at `base` erased. -/
def erase (mem : Nat → UInt8) (base sz : Nat) : Nat → UInt8 := patch mem base sz (fun _ => erased)

/-- The memory with the first `len` bytes of `src` programmed at `dst`. -/
def program (mem : Nat → UInt8) (dst len : Nat) (src : Nat → UInt8) : Nat → UInt8 := fun a =>
  if dst ≤ a ∧ a < dst + len then mem a &&& src (a - dst) else mem a

/-- The memory with the first `n` pages of `src` programmed at `base`, one after
the other. -/
def programPages (pageSz base : Nat) (src : Nat → UInt8) (n : Nat) (mem : Nat → UInt8) :
    Nat → UInt8 :=
  (List.range n).foldl (fun mem page =>
    program mem (base + page * pageSz) pageSz (fun i => src (page * pageSz + i))) mem

theorem and_erased (x : UInt8) : x &&& erased = x := UInt8.and_neg_one

theorem erased_and (x : UInt8) : erased &&& x = x := UInt8.neg_one_and

variable (mem src : Nat → UInt8) (base : Nat)

theorem erase_outside {sz a : Nat} (h : ¬(base ≤ a ∧ a < base + sz)) :
    erase mem base sz a = mem a := patch_outside h

theorem program_outside {len a : Nat} (h : ¬(base ≤ a ∧ a < base + len)) :
    program mem base len src a = mem a := if_neg h

theorem erase_erase (sz : Nat) : erase (erase mem base sz) base sz = erase mem base sz :=
  patch_patch

theorem programPages_succ (pageSz n : Nat) : programPages pageSz base src (n + 1) mem =
    program (programPages pageSz base src n mem) (base + n * pageSz) pageSz
      (fun i => src (n * pageSz + i)) := by
  simp only [programPages, List.range_succ, List.foldl_append, List.foldl_cons, List.foldl_nil]

theorem programPages_eq (pageSz n : Nat) :
    programPages pageSz base src n mem = program mem base (n * pageSz) src := by
  funext a
  induction n with
  | zero =>
      have hout : ¬(base ≤ a ∧ a < base + 0 * pageSz) := by omega
      simp only [program, if_neg hout]
      rfl
  | succ n ih =>
      have hsucc : (n + 1) * pageSz = n * pageSz + pageSz := Nat.succ_mul _ _
      rw [programPages_succ]
      simp only [program] at ih ⊢
      rw [ih]
      by_cases hlast : base + n * pageSz ≤ a ∧ a < base + n * pageSz + pageSz
      · have hsub : n * pageSz + (a - (base + n * pageSz)) = a - base := by omega
        have hout : ¬(base ≤ a ∧ a < base + n * pageSz) := by omega
        have hin : base ≤ a ∧ a < base + (n + 1) * pageSz := by omega
        rw [if_pos hlast, if_neg hout, if_pos hin, hsub]
      · rw [if_neg hlast]
        by_cases hin : base ≤ a ∧ a < base + n * pageSz
        · rw [if_pos hin, if_pos (by omega)]
        · rw [if_neg hin, if_neg (by omega)]

theorem program_erase (sz : Nat) : program (erase mem base sz) base sz src =
    patch mem base sz src := by
  funext a
  by_cases hin : base ≤ a ∧ a < base + sz
  · simp only [program, erase, patch, if_pos hin, erased_and]
  · simp only [program, erase, patch, if_neg hin]

/-- Erasing a piece and programming it page by page stores the bytes. -/
theorem programPages_erase {pageSz sz : Nat} (h : pageSz ∣ sz) :
    programPages pageSz base src (sz / pageSz) (erase mem base sz) = patch mem base sz src := by
  rw [programPages_eq, Nat.div_mul_cancel h, program_erase]

end Plo.Nor
