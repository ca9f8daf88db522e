import Plo.Devices.Devs
import Mathlib.Data.List.Range
import Mathlib.Tactic.Have

/-!
Going through the table of devices. The position is kept by the caller in one word,
the major in its upper half and the minor of the next slot in its lower one; a slot
without a driver is returned too, the end of the table is not.
-/
namespace Plo.Devices

variable {δ : Type}

/-- What one call returns: the slot's contents, its major and its minor. -/
structure IterItem (δ : Type) where
  dev : Option δ
  major : Nat
  minor : Nat
  deriving DecidableEq

/-- The loops of `devs_iterNext`, `left` majors before the end of the table; the inner
one returns in its first round. `none` stands for `DEVS_ITER_STOP`. -/
def iterMajors (devs : Devs δ) : Nat → BitVec 32 → Nat → Option (IterItem δ) × BitVec 32
  | 0, ctx, _ => (none, ctx)
  | left + 1, ctx, currMinor =>
    let currMajor := SIZE_MAJOR - (left + 1)
    if currMinor < SIZE_MINOR then
      (some ⟨devs currMajor currMinor, currMajor, currMinor⟩,
        (ctx &&& ~~~0xffff#32) + BitVec.ofNat 32 (currMinor + 1))
    else
      iterMajors devs left ((ctx &&& 0xffff#32) ||| (BitVec.ofNat 32 (currMajor + 1) <<< 16)) 0

def devsIterNext (devs : Devs δ) (ctx : BitVec 32) : Option (IterItem δ) × BitVec 32 :=
  let currMajor := ((ctx >>> 16) &&& 0xffff#32).toNat
  let currMinor := (ctx &&& 0xffff#32).toNat
  iterMajors devs (SIZE_MAJOR - currMajor) ctx currMinor

/-- The word of a caller that has passed `minor` slots of `major`. -/
def iterCtx (major minor : Nat) : BitVec 32 := BitVec.ofNat 32 (major * 65536 + minor)

/-- What the two halves of the word are, and how a call moves them. -/
structure CtxFacts (major minor : Nat) : Prop where
  major_eq : ((iterCtx major minor >>> 16) &&& 0xffff#32).toNat = major
  minor_eq : (iterCtx major minor &&& 0xffff#32).toNat = minor
  next_slot : (iterCtx major minor &&& ~~~0xffff#32) + BitVec.ofNat 32 (minor + 1) =
    iterCtx major (minor + 1)
  next_major : (iterCtx major minor &&& 0xffff#32) ||| (BitVec.ofNat 32 (major + 1) <<< 16) =
    iterCtx (major + 1) minor
  first_slot : (iterCtx major minor &&& ~~~0xffff#32) + BitVec.ofNat 32 (0 + 1) = iterCtx major 1

theorem sizes : SIZE_MAJOR = 11 ∧ SIZE_MINOR = 16 := ⟨rfl, rfl⟩

theorem ctxFacts {major minor : Nat} (hmajor : major ≤ SIZE_MAJOR) (hminor : minor ≤ SIZE_MINOR) :
    CtxFacts major minor := by
  have hall : ∀ major < 12, ∀ minor < 17,
      ((iterCtx major minor >>> 16) &&& 0xffff#32).toNat = major ∧
      (iterCtx major minor &&& 0xffff#32).toNat = minor ∧
      (iterCtx major minor &&& ~~~0xffff#32) + BitVec.ofNat 32 (minor + 1) =
        iterCtx major (minor + 1) ∧
      (iterCtx major minor &&& 0xffff#32) ||| (BitVec.ofNat 32 (major + 1) <<< 16) =
        iterCtx (major + 1) minor ∧
      (iterCtx major minor &&& ~~~0xffff#32) + BitVec.ofNat 32 (0 + 1) = iterCtx major 1 := by
    decide +kernel
  have hsizes := sizes
  obtain ⟨h1, h2, h3, h4, h5⟩ := hall major (by omega) minor (by omega)
  exact ⟨h1, h2, h3, h4, h5⟩

variable {devs : Devs δ} {major minor : Nat}

theorem devsIterNext_slot (hmajor : major < SIZE_MAJOR) (hminor : minor < SIZE_MINOR) :
    devsIterNext devs (iterCtx major minor) =
      (some ⟨devs major minor, major, minor⟩, iterCtx major (minor + 1)) := by
  have hsizes := sizes
  have h := ctxFacts hmajor.le hminor.le
  obtain ⟨left, hleft⟩ : ∃ left, SIZE_MAJOR - major = left + 1 := ⟨10 - major, by omega⟩
  simp only [devsIterNext, h.major_eq, h.minor_eq, hleft, iterMajors]
  rw [if_pos hminor, h.next_slot]
  have hback : SIZE_MAJOR - (left + 1) = major := by omega
  rw [hback]

theorem devsIterNext_wrap (hmajor : major + 1 < SIZE_MAJOR) :
    devsIterNext devs (iterCtx major SIZE_MINOR) =
      (some ⟨devs (major + 1) 0, major + 1, 0⟩, iterCtx (major + 1) 1) := by
  have hsizes := sizes
  have h : CtxFacts major SIZE_MINOR := ctxFacts (by omega) le_rfl
  have h' : CtxFacts (major + 1) SIZE_MINOR := ctxFacts (by omega) le_rfl
  obtain ⟨left, hleft⟩ : ∃ left, SIZE_MAJOR - major = left + 1 + 1 := ⟨9 - major, by omega⟩
  have hback : SIZE_MAJOR - (left + 1 + 1) = major := by omega
  have hback' : SIZE_MAJOR - (left + 1) = major + 1 := by omega
  simp only [devsIterNext, h.major_eq, h.minor_eq, hleft, iterMajors]
  rw [if_neg (Nat.lt_irrefl _), if_pos (by omega), hback, hback', h.next_major, h'.first_slot]

theorem devsIterNext_last :
    devsIterNext devs (iterCtx 10 SIZE_MINOR) = (none, iterCtx SIZE_MAJOR SIZE_MINOR) := by
  have h : CtxFacts 10 SIZE_MINOR := ctxFacts (by decide) le_rfl
  have hleft : SIZE_MAJOR - 10 = 0 + 1 := rfl
  simp only [devsIterNext, h.major_eq, h.minor_eq, hleft, iterMajors]
  rw [if_neg (Nat.lt_irrefl _)]
  exact congrArg _ h.next_major

theorem devsIterNext_stop :
    devsIterNext devs (iterCtx SIZE_MAJOR SIZE_MINOR) = (none, iterCtx SIZE_MAJOR SIZE_MINOR) := by
  have h : CtxFacts SIZE_MAJOR SIZE_MINOR := ctxFacts le_rfl le_rfl
  simp only [devsIterNext, h.major_eq, iterMajors, Nat.sub_self]

/-- The slots in the order of the calls. -/
def slotItem (devs : Devs δ) (n : Nat) : IterItem δ :=
  ⟨devs (n / SIZE_MINOR) (n % SIZE_MINOR), n / SIZE_MINOR, n % SIZE_MINOR⟩

def slotCount : Nat := SIZE_MAJOR * SIZE_MINOR

/-- The word before the call that returns the slot `n`: the slot before it has been
passed, which for the first slot of a row is the last one of the row before. -/
def slotCtx (n : Nat) : BitVec 32 :=
  if n = 0 then iterCtx 0 0 else iterCtx ((n - 1) / SIZE_MINOR) ((n - 1) % SIZE_MINOR + 1)

theorem slotCtx_zero : slotCtx 0 = 0#32 := rfl

theorem slotCtx_succ (n : Nat) : slotCtx (n + 1) = iterCtx (n / SIZE_MINOR) (n % SIZE_MINOR + 1) := by
  rw [slotCtx, if_neg (Nat.succ_ne_zero n), Nat.add_sub_cancel]

theorem devsIterNext_slotCtx {n : Nat} (hn : n < slotCount) :
    devsIterNext devs (slotCtx n) = (some (slotItem devs n), slotCtx (n + 1)) := by
  have hsizes := sizes
  have hcount : slotCount = 176 := rfl
  rw [slotCtx_succ]
  cases n with
  | zero => exact devsIterNext_slot (by omega) (by omega)
  | succ n =>
      rw [slotCtx_succ, slotItem]
      by_cases hwrap : n % 16 + 1 = 16
      · have hmajor : (n + 1) / 16 = n / 16 + 1 := by omega
        have hminor : (n + 1) % 16 = 0 := by omega
        have hrow : n / 16 + 1 < SIZE_MAJOR := by omega
        rw [hwrap, hmajor, hminor]
        exact devsIterNext_wrap hrow
      · have hmajor : (n + 1) / 16 = n / 16 := by omega
        have hminor : (n + 1) % 16 = n % 16 + 1 := by omega
        have hrow : n / 16 < SIZE_MAJOR := by omega
        have hcol : n % 16 + 1 < SIZE_MINOR := by omega
        rw [hmajor, hminor]
        exact devsIterNext_slot hrow hcol

/-- The loop of `cmd_devs`: the slots it prints, those that hold a driver. -/
def cmdDevs (devs : Devs δ) : Nat → BitVec 32 → Option (List (IterItem δ))
  | 0, _ => none
  | fuel + 1, ctx =>
    match devsIterNext devs ctx with
    | (none, _) => some []
    | (some item, ctx) =>
      (cmdDevs devs fuel ctx).map fun items => if item.dev.isSome then item :: items else items

theorem cmdDevs_slot {n fuel : Nat} (hn : n < slotCount) :
    cmdDevs devs (fuel + 1) (slotCtx n) = (cmdDevs devs fuel (slotCtx (n + 1))).map fun items =>
      if (slotItem devs n).dev.isSome then slotItem devs n :: items else items := by
  rw [cmdDevs, devsIterNext_slotCtx hn]

theorem cmdDevs_end (fuel : Nat) : cmdDevs devs (fuel + 1) (slotCtx slotCount) = some [] := by
  have hctx : slotCtx slotCount = iterCtx 10 SIZE_MINOR := rfl
  rw [cmdDevs, hctx, devsIterNext_last]

theorem cmdDevs_from {k n fuel : Nat} (hk : n + k = slotCount) (hfuel : k < fuel) :
    cmdDevs devs fuel (slotCtx n) =
      some (((List.range' n k).map (slotItem devs)).filter (·.dev.isSome)) := by
  induction k generalizing n fuel with
  | zero =>
      obtain ⟨fuel, rfl⟩ : ∃ f, fuel = f + 1 := ⟨fuel - 1, by omega⟩
      obtain rfl : n = slotCount := by omega
      rw [cmdDevs_end, List.range'_zero, List.map_nil, List.filter_nil]
  | succ k ih =>
      obtain ⟨fuel, rfl⟩ : ∃ f, fuel = f + 1 := ⟨fuel - 1, by omega⟩
      rw [cmdDevs_slot (by omega), ih (n := n + 1) (by omega) (by omega), List.range'_succ,
        List.map_cons, List.filter_cons, Option.map_some]

/-- A row and the items of its drivers: those behind the end of the list are empty. -/
theorem filter_row (major : Nat) (ds : List δ) (first k : Nat) (hk : ds.length ≤ k) :
    ((List.range' first k).map fun minor =>
        (⟨ds[minor - first]?, major, minor⟩ : IterItem δ)).filter (·.dev.isSome) =
      (ds.zipIdx first).map fun p => ⟨some p.1, major, p.2⟩ := by
  induction k generalizing ds first with
  | zero =>
      obtain rfl : ds = [] := List.length_eq_zero_iff.mp (by omega)
      rfl
  | succ k ih =>
      cases ds with
      | nil =>
          rw [List.filter_eq_nil_iff.mpr]
          · rfl
          · intro item hitem
            obtain ⟨minor, -, rfl⟩ := List.mem_map.mp hitem
            simp
      | cons d ds =>
          have hrest : (List.range' (first + 1) k).map (fun minor =>
                (⟨(d :: ds)[minor - first]?, major, minor⟩ : IterItem δ)) =
              (List.range' (first + 1) k).map fun minor =>
                ⟨ds[minor - (first + 1)]?, major, minor⟩ := by
            refine List.map_congr_left fun minor hminor => ?_
            have hpos : minor - first = minor - (first + 1) + 1 := by
              have hle := (List.mem_range'_1.mp hminor).1
              omega
            rw [hpos, List.getElem?_cons_succ]
          rw [List.range'_succ, List.map_cons, hrest, Nat.sub_self, List.getElem?_cons_zero,
            List.filter_cons_of_pos rfl, ih ds (first + 1) (by simpa using hk),
            List.zipIdx_cons, List.map_cons]

theorem range_mul (a b : Nat) :
    List.range (a * b) = (List.range a).flatMap fun i => (List.range b).map (i * b + ·) := by
  induction a with
  | zero => simp
  | succ a ih =>
      rw [Nat.succ_mul, List.range_add, ih, List.range_succ, List.flatMap_append]
      simp

/-- The slots of one major. -/
theorem map_slotItem_row (major : Nat) :
    ((List.range SIZE_MINOR).map (major * SIZE_MINOR + ·)).map (slotItem devs) =
      (List.range SIZE_MINOR).map fun minor => ⟨devs major minor, major, minor⟩ := by
  rw [List.map_map]
  refine List.map_congr_left fun minor hminor => ?_
  have hlt : minor < 16 := List.mem_range.mp hminor
  have hdiv : (major * 16 + minor) / 16 = major := by omega
  have hmod : (major * 16 + minor) % 16 = minor := by omega
  simp only [Function.comp_apply, slotItem]
  rw [hdiv, hmod]

theorem granted_length_le (major : Nat) (calls : List (Registration δ)) :
    (granted major calls).length ≤ SIZE_MINOR := List.length_take_le _ _

/-- After any registrations the command lists the drivers of each major, and nothing
else, by major and then by minor. -/
theorem cmdDevs_registered (calls : List (Registration δ)) (k : Nat) :
    cmdDevs (calls.foldl devsRegister devsEmpty) (slotCount + 1 + k) 0#32 =
      some ((List.range SIZE_MAJOR).flatMap fun major =>
        ((granted major calls).zipIdx).map fun p => ⟨some p.1, major, p.2⟩) := by
  rw [← slotCtx_zero, cmdDevs_from (k := slotCount) (by omega) (by omega),
    ← List.range_eq_range', slotCount, range_mul, List.map_flatMap, List.filter_flatMap]
  congr 1
  refine List.flatMap_congr fun major hmajor => ?_
  have hmajor : major < SIZE_MAJOR := List.mem_range.mp hmajor
  rw [map_slotItem_row, ← filter_row major _ 0 SIZE_MINOR (granted_length_le major calls),
    List.range_eq_range']
  congr 1
  refine List.map_congr_left fun minor hminor => ?_
  have hminor : minor < SIZE_MINOR := by simpa using List.mem_range'_1.mp hminor
  have hslot := (registered_foldl calls).devsGet major minor
  rw [devsGet, if_pos ⟨hmajor, hminor⟩] at hslot
  rw [hslot, Nat.sub_zero]

/-- `pair_t`; the fields are `int`. -/
structure Pair where
  major : BitVec 32
  minor : BitVec 32

/-- The second loop of `validatePair`, over the table. -/
def validateSlots (devs : Devs δ) (p : Pair) : Nat → BitVec 32 → Option Int
  | 0, _ => none
  | fuel + 1, ctx =>
    match devsIterNext devs ctx with
    | (none, _) => some (-1)
    | (some item, ctx) =>
      if item.dev.isSome ∧ p.major = BitVec.ofNat 32 item.major ∧
          p.minor = BitVec.ofNat 32 item.minor then some 0
      else validateSlots devs p fuel ctx

def DEV_UART : BitVec 32 := 0
def DEV_USB : BitVec 32 := 1
def DEV_PIPE : BitVec 32 := 8

/-- `validatePair` of the `bridge` command. -/
def validatePair (devs : Devs δ) (fuel : Nat) (p : Pair) : Option Int :=
  if p.major.toInt < 0 ∧ p.minor.toInt < 0 then some (-1)
  else if p.major ∈ [DEV_UART, DEV_USB, DEV_PIPE] then validateSlots devs p fuel 0#32
  else some (-1)

/-- The slot `n` is the one asked for, and it holds a driver. -/
def Asked (devs : Devs δ) (p : Pair) (n : Nat) : Prop :=
  (slotItem devs n).dev.isSome ∧ p.major = BitVec.ofNat 32 (slotItem devs n).major ∧
    p.minor = BitVec.ofNat 32 (slotItem devs n).minor

theorem validateSlots_from (devs : Devs δ) (p : Pair) (n fuel : Nat) {k : Nat}
    (hk : n + k = slotCount) (hfuel : k < fuel) :
    (validateSlots devs p fuel (slotCtx n) = some 0 ∧ ∃ m, n ≤ m ∧ m < slotCount ∧ Asked devs p m) ∨
      (validateSlots devs p fuel (slotCtx n) = some (-1) ∧
        ∀ m, n ≤ m → m < slotCount → ¬Asked devs p m) := by
  obtain ⟨fuel, rfl⟩ : ∃ f, fuel = f + 1 := ⟨fuel - 1, by omega⟩
  induction k generalizing n fuel with
  | zero =>
      obtain rfl : n = slotCount := by omega
      have hctx : slotCtx slotCount = iterCtx 10 SIZE_MINOR := rfl
      refine Or.inr ⟨?_, fun m hle hlt => absurd hlt (by omega)⟩
      rw [validateSlots, hctx, devsIterNext_last]
  | succ k ih =>
      have hnext : devsIterNext devs (slotCtx n) = (some (slotItem devs n), slotCtx (n + 1)) :=
        devsIterNext_slotCtx (by omega)
      by_cases hasked : Asked devs p n
      · refine Or.inl ⟨?_, n, le_rfl, by omega, hasked⟩
        simp only [validateSlots, hnext]
        exact if_pos hasked
      · have hskip : validateSlots devs p (fuel + 1) (slotCtx n) =
            validateSlots devs p fuel (slotCtx (n + 1)) := by
          simp only [validateSlots, hnext]
          exact if_neg hasked
        obtain ⟨fuel, rfl⟩ : ∃ f, fuel = f + 1 := ⟨fuel - 1, by omega⟩
        rw [hskip]
        rcases ih (n := n + 1) (by omega) fuel (by omega) with ⟨h, m, hle, hm⟩ | ⟨h, hnone⟩
        · exact Or.inl ⟨h, m, by omega, hm⟩
        · refine Or.inr ⟨h, fun m hle hlt => ?_⟩
          rcases Nat.eq_or_lt_of_le hle with rfl | hlt'
          · exact hasked
          · exact hnone m hlt' hlt

theorem exists_asked_iff (devs : Devs δ) (p : Pair) :
    (∃ m, m < slotCount ∧ Asked devs p m) ↔
      (devsGet devs p.major.toNat p.minor.toNat).isSome := by
  constructor
  · rintro ⟨m, hm, hdev, hmajor, hminor⟩
    have hlt : m < 176 := hm
    have hrow : (slotItem devs m).major = m / 16 := rfl
    have hcol : (slotItem devs m).minor = m % 16 := rfl
    have hmajor : p.major.toNat = m / 16 := by
      rw [hmajor, hrow, BitVec.toNat_ofNat, Nat.mod_eq_of_lt (by omega)]
    have hminor : p.minor.toNat = m % 16 := by
      rw [hminor, hcol, BitVec.toNat_ofNat, Nat.mod_eq_of_lt (by omega)]
    have hin : m / 16 < SIZE_MAJOR ∧ m % 16 < SIZE_MINOR := by
      have hsizes := sizes
      omega
    rw [hmajor, hminor, devsGet, if_pos hin]
    exact hdev
  · intro h
    rw [devsGet] at h
    split at h
    · next hslot =>
      obtain ⟨hmajor, hminor⟩ : p.major.toNat < 11 ∧ p.minor.toNat < 16 := hslot
      have hrow : (p.major.toNat * 16 + p.minor.toNat) / 16 = p.major.toNat := by omega
      have hcol : (p.major.toNat * 16 + p.minor.toNat) % 16 = p.minor.toNat := by omega
      refine ⟨p.major.toNat * 16 + p.minor.toNat, ?_, ?_, ?_, ?_⟩
      · have hcount : slotCount = 176 := rfl
        omega
      · simp only [slotItem, hrow, hcol, h]
      · simp only [slotItem, hrow, BitVec.ofNat_toNat, BitVec.setWidth_eq]
      · simp only [slotItem, hcol, BitVec.ofNat_toNat, BitVec.setWidth_eq]
    · simp at h

/-- After any registrations `bridge` accepts the pairs of a serial major and a minor
below the number of its drivers. -/
theorem validatePair_registered (calls : List (Registration δ)) (k : Nat) (p : Pair) :
    validatePair (calls.foldl devsRegister devsEmpty) (slotCount + 1 + k) p =
      some (if p.major ∈ [DEV_UART, DEV_USB, DEV_PIPE] ∧
        p.minor.toNat < (granted p.major.toNat calls).length then 0 else -1) := by
  have hiff := exists_asked_iff (calls.foldl devsRegister devsEmpty) p
  rw [(registered_foldl calls).devsGet, isSome_getElem?] at hiff
  have hscan := validateSlots_from (calls.foldl devsRegister devsEmpty) p 0 (slotCount + 1 + k)
    (Nat.zero_add slotCount) (by omega)
  rw [slotCtx_zero] at hscan
  rw [validatePair]
  by_cases hmajor : p.major ∈ [DEV_UART, DEV_USB, DEV_PIPE]
  · have hpos : ¬(p.major.toInt < 0 ∧ p.minor.toInt < 0) := by
      rintro ⟨hneg, -⟩
      simp only [List.mem_cons, List.not_mem_nil, or_false] at hmajor
      rcases hmajor with h | h | h <;> rw [h] at hneg <;> revert hneg <;> decide
    rw [if_neg hpos, if_pos hmajor]
    rcases hscan with ⟨hres, m, -, hlt, hm⟩ | ⟨hres, hnone⟩
    · rw [hres, if_pos ⟨hmajor, hiff.mp ⟨m, hlt, hm⟩⟩]
    · rw [hres, if_neg]
      rintro ⟨-, hlt⟩
      obtain ⟨m, hm, hasked⟩ := hiff.mpr hlt
      exact hnone m (Nat.zero_le _) hm hasked
  · have hno : ¬(p.major ∈ [DEV_UART, DEV_USB, DEV_PIPE] ∧
        p.minor.toNat < (granted p.major.toNat calls).length) := fun h => hmajor h.1
    rw [if_neg hno, if_neg hmajor, ite_self]

end Plo.Devices
