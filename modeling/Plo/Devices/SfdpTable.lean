import Plo.Devices.Sfdp

/-!
Which dwords of the basic parameter table are read, and what is made of them. The length of
the table is compared with the dword that marks a type of read operations as supported, not
with the one that has its parameters.
-/
namespace Plo.Devices.Sfdp

section
variable {ptable : Nat → BitVec 32} {ptableLen : Nat} {res : OpParameters}

/-- The table has the dword that marks the type, and it does. -/
def Marked (ptable : Nat → BitVec 32) (ptableLen : Nat) (i : IoType) : Prop :=
  (operationLookup i).checkIdx < ptableLen ∧
    (ptable (operationLookup i).checkIdx >>> (operationLookup i).checkShift) &&& 1 ≠ 0

/-- The last of the types that the table marks. -/
def LastMarked (ptable : Nat → BitVec 32) (ptableLen : Nat) (is : List IoType) (i : IoType) :
    Prop :=
  i ∈ is ∧ Marked ptable ptableLen i ∧ ∀ j ∈ is, Marked ptable ptableLen j → j.value ≤ i.value

theorem readMode_unmarked {is : List IoType} (h : ∀ i ∈ is, ¬Marked ptable ptableLen i) :
    (readMode ptable ptableLen res is).2 = res ∧
      ∀ k ∈ (readMode ptable ptableLen res is).1, k < ptableLen := by
  induction is with
  | nil => exact ⟨rfl, nofun⟩
  | cons i is ih =>
      have hrest := ih fun j hj => h j (List.mem_cons_of_mem i hj)
      by_cases hlen : (operationLookup i).checkIdx ≥ ptableLen
      · rw [readMode, if_pos hlen]
        exact hrest
      · have hbit : ¬(ptable (operationLookup i).checkIdx >>>
            (operationLookup i).checkShift) &&& 1 ≠ 0 :=
          fun hbit => h i List.mem_cons_self ⟨Nat.lt_of_not_le hlen, hbit⟩
        rw [readMode, if_neg hlen, if_neg hbit]
        refine ⟨hrest.1, ?_⟩
        intro k hk
        rcases List.mem_cons.mp hk with rfl | hk
        · exact Nat.lt_of_not_le hlen
        · exact hrest.2 k hk

/-- The parameters of a type are all in one dword. -/
theorem operationLookup_idx (i : IoType) :
    (operationLookup i).dummyIdx = (operationLookup i).opcodeIdx ∧
      (operationLookup i).modeCycIdx = (operationLookup i).opcodeIdx := by
  cases i <;> exact ⟨rfl, rfl⟩

/-- The loop takes the parameters of the last type that is marked. -/
theorem readMode_marked (res : OpParameters) {is : List IoType}
    (hdown : is.Pairwise fun i j => j.value < i.value)
    {i : IoType} (h : LastMarked ptable ptableLen is i) :
    (readMode ptable ptableLen res is).2 = withMode ptable res i ∧
      ((∀ k ∈ (readMode ptable ptableLen res is).1, k < ptableLen) ↔
        (operationLookup i).opcodeIdx < ptableLen) := by
  induction is with
  | nil => exact absurd h.1 List.not_mem_nil
  | cons j is ih =>
      obtain ⟨hmem, hmarked, hlast⟩ := h
      obtain ⟨hfirst, hdown⟩ := List.pairwise_cons.mp hdown
      by_cases hj : Marked ptable ptableLen j
      · have hij : i = j := by
          rcases List.mem_cons.mp hmem with heq | hmem
          · exact heq
          · exact absurd (hlast j List.mem_cons_self hj) (Nat.not_le.mpr (hfirst i hmem))
        subst hij
        obtain ⟨hdummy, hcyc⟩ := operationLookup_idx i
        rw [readMode, if_neg (Nat.not_le.mpr hmarked.1), if_pos hmarked.2]
        refine ⟨rfl, ?_⟩
        rw [hdummy, hcyc]
        constructor
        · intro hall
          exact hall _ (List.mem_cons_of_mem _ List.mem_cons_self)
        · intro hlt k hk
          simp only [List.mem_cons, List.not_mem_nil, or_false, or_self] at hk
          rcases hk with rfl | rfl
          · exact hmarked.1
          · exact hlt
      · have hmem' : i ∈ is := by
          rcases List.mem_cons.mp hmem with rfl | hmem
          · exact absurd hmarked hj
          · exact hmem
        have hrest := ih hdown ⟨hmem', hmarked, fun k hk => hlast k (List.mem_cons_of_mem j hk)⟩
        by_cases hlen : (operationLookup j).checkIdx ≥ ptableLen
        · rw [readMode, if_pos hlen]
          exact hrest
        · have hbit : ¬(ptable (operationLookup j).checkIdx >>>
              (operationLookup j).checkShift) &&& 1 ≠ 0 :=
            fun hbit => hj ⟨Nat.lt_of_not_le hlen, hbit⟩
          rw [readMode, if_neg hlen, if_neg hbit]
          refine ⟨hrest.1, ?_⟩
          rw [← hrest.2]
          simp only [List.forall_mem_cons, Nat.lt_of_not_le hlen, true_and]

theorem considered_pairwise (tryMultiIoCmd : Bool) :
    (considered tryMultiIoCmd).Pairwise fun i j => j.value < i.value := by
  cases tryMultiIoCmd <;> decide

/-- Either no type is marked or one of them is the last. -/
theorem exists_lastMarked (ptable : Nat → BitVec 32) (ptableLen : Nat) {is : List IoType}
    (hdown : is.Pairwise fun i j => j.value < i.value) :
    (∀ i ∈ is, ¬Marked ptable ptableLen i) ∨ ∃ i, LastMarked ptable ptableLen is i := by
  induction is with
  | nil => exact Or.inl nofun
  | cons i is ih =>
      obtain ⟨hfirst, hdown⟩ := List.pairwise_cons.mp hdown
      by_cases hi : Marked ptable ptableLen i
      · refine Or.inr ⟨i, List.mem_cons_self, hi, ?_⟩
        intro j hj _
        rcases List.mem_cons.mp hj with rfl | hj
        · exact Nat.le_refl _
        · exact Nat.le_of_lt (hfirst j hj)
      · rcases ih hdown with hnone | ⟨j, hj, hmarked, hlast⟩
        · refine Or.inl ?_
          intro j hj
          rcases List.mem_cons.mp hj with rfl | hj
          · exact hi
          · exact hnone j hj
        · refine Or.inr ⟨j, List.mem_cons_of_mem i hj, hmarked, ?_⟩
          intro k hk hmk
          rcases List.mem_cons.mp hk with rfl | hk
          · exact absurd hmk hi
          · exact hlast k hk hmk

/-- The loop ends with the operation it began with, when none is larger, or with a largest
one of the table. -/
theorem eraseLoop_largest (ptable : Nat → BitVec 32) (ls : List EraseLookup) (op : EraseOp) :
    ((eraseLoop ptable ls op).2 = op ∧ ∀ l ∈ ls, eraseSize ptable l ≤ op.logEraseSize) ∨
      ∃ l ∈ ls, (eraseLoop ptable ls op).2 = eraseOp ptable l ∧
        op.logEraseSize < eraseSize ptable l ∧
        ∀ l' ∈ ls, eraseSize ptable l' ≤ eraseSize ptable l := by
  induction ls generalizing op with
  | nil => exact Or.inl ⟨rfl, nofun⟩
  | cons l ls ih =>
      by_cases hlt : eraseSize ptable l > op.logEraseSize
      · rw [eraseLoop, if_pos hlt]
        rcases ih (eraseOp ptable l) with ⟨hop, hall⟩ | ⟨l', hl', hop, hlarge, hall⟩
        · refine Or.inr ⟨l, List.mem_cons_self, hop, hlt, ?_⟩
          intro l' hl'
          rcases List.mem_cons.mp hl' with rfl | hl'
          · exact BitVec.le_refl _
          · exact hall l' hl'
        · refine Or.inr ⟨l', List.mem_cons_of_mem l hl', hop, BitVec.lt_trans hlt hlarge, ?_⟩
          intro l'' hl''
          rcases List.mem_cons.mp hl'' with rfl | hl''
          · exact BitVec.le_of_lt hlarge
          · exact hall l'' hl''
      · have hle : eraseSize ptable l ≤ op.logEraseSize := BitVec.not_lt.mp hlt
        rw [eraseLoop, if_neg hlt]
        rcases ih op with ⟨hop, hall⟩ | ⟨l', hl', hop, hlarge, hall⟩
        · refine Or.inl ⟨hop, ?_⟩
          intro l' hl'
          rcases List.mem_cons.mp hl' with rfl | hl'
          · exact hle
          · exact hall l' hl'
        · refine Or.inr ⟨l', List.mem_cons_of_mem l hl', hop, hlarge, ?_⟩
          intro l'' hl''
          rcases List.mem_cons.mp hl'' with rfl | hl''
          · exact BitVec.le_trans hle (BitVec.le_of_lt hlarge)
          · exact hall l'' hl''

theorem eraseLoop_reads (ls : List EraseLookup) (op : EraseOp) :
    ∀ k ∈ (eraseLoop ptable ls op).1, ∃ l ∈ ls, k = l.sizeIdx := by
  induction ls generalizing op with
  | nil => exact nofun
  | cons l ls ih =>
      have hrest (op' : EraseOp) {k : Nat} (hk : k ∈ (eraseLoop ptable ls op').1) :
          ∃ l' ∈ l :: ls, k = l'.sizeIdx := by
        obtain ⟨l', hl', heq⟩ := ih op' k hk
        exact ⟨l', List.mem_cons_of_mem l hl', heq⟩
      intro k hk
      by_cases hlt : eraseSize ptable l > op.logEraseSize
      · rw [eraseLoop, if_pos hlt] at hk
        rcases List.mem_cons.mp hk with rfl | hk
        · exact ⟨l, List.mem_cons_self, rfl⟩
        · rcases List.mem_cons.mp hk with rfl | hk
          · exact ⟨l, List.mem_cons_self, rfl⟩
          · exact hrest _ hk
      · rw [eraseLoop, if_neg hlt] at hk
        rcases List.mem_cons.mp hk with rfl | hk
        · exact ⟨l, List.mem_cons_self, rfl⟩
        · exact hrest _ hk

end

section
variable {data : Nat → BitVec 32} {res : OpParameters} {tryMultiIoCmd : Bool}

/-- Only dwords of the table are read; the parser takes the last type of read operations
that the table marks, with its parameters, and a largest one of the erase operations, with
its own opcode and, from a table that has the times, its own timeout. -/
structure TableRight (ptable : Nat → BitVec 32) (ptableLen : Nat) (is : List IoType)
    (p : Parsed) : Prop where
  reads : ∀ k ∈ p.reads, k < ptableLen
  mode : p.ret = EOK →
    (∃ i, LastMarked ptable ptableLen is i ∧ p.res.readIoType = i ∧
        p.res.readOpcode = field (ptable (operationLookup i).opcodeIdx)
          (operationLookup i).opcodeShift 0xff ∧
        p.res.readDummy = field (ptable (operationLookup i).dummyIdx)
          (operationLookup i).dummyShift 0x1f ∧
        p.res.readModeCyc = field (ptable (operationLookup i).modeCycIdx)
          (operationLookup i).modeCycShift 0x7) ∨
      (∀ i ∈ is, ¬Marked ptable ptableLen i) ∧ p.res.readIoType = .io111 ∧
        p.res.readOpcode = 0x3 ∧ p.res.readDummy = 0 ∧ p.res.readModeCyc = 0
  erase : p.ret = EOK → 9 ≤ ptableLen → (∃ l ∈ eraseLookup, eraseSize ptable l ≠ 0) →
    ∃ l ∈ eraseLookup, (∀ l' ∈ eraseLookup, eraseSize ptable l' ≤ eraseSize ptable l) ∧
      p.res.logEraseSize = eraseSize ptable l ∧
      p.res.eraseOpcode = field (ptable l.sizeIdx) l.opcodeShift 0xff ∧
      (10 ≤ ptableLen → p.res.eraseBlockTimeout = blockTimeout ptable l.timeShift)

/-- The parser does right by the table that it chooses. -/
def SfdpRight (data : Nat → BitVec 32) (res : OpParameters) (tryMultiIoCmd : Bool) : Prop :=
  ∀ ptable ptableLen, findTable data = some (ptable, ptableLen) →
    TableRight (fun i => data (ptable + i)) ptableLen (considered tryMultiIoCmd)
      (parseSfdp data res tryMultiIoCmd)

/-- The table of an image that is parsed: its signature, revision and size are supported. -/
structure Parsable (data : Nat → BitVec 32) (ptable ptableLen : Nat) : Prop where
  signature : data 0 = 0x50444653
  revision : (data 1 >>> 8) &&& 0xff = 0x01
  found : findTable data = some (ptable, ptableLen)
  length : 2 ≤ ptableLen
  size : (chipSize (data (ptable + 1))).isSome

/-- The dword with the parameters of the last type that the table marks is in the table. -/
def ModeInside (data : Nat → BitVec 32) (tryMultiIoCmd : Bool) : Prop :=
  ∀ ptable ptableLen i, Parsable data ptable ptableLen →
    LastMarked (fun k => data (ptable + k)) ptableLen (considered tryMultiIoCmd) i →
    (operationLookup i).opcodeIdx < ptableLen

section
variable {ptable : Nat → BitVec 32} {ptableLen : Nat}

theorem takeErase_spec (ptable : Nat → BitVec 32) (ptableLen : Nat) (op : EraseOp) (res : OpParameters) :
    (∀ k ∈ (takeErase ptable ptableLen op res).1, k < ptableLen) ∧
      (takeErase ptable ptableLen op res).2 =
        { res with
          logEraseSize := if op.logEraseSize ≠ 0 then op.logEraseSize else res.logEraseSize
          eraseOpcode := if op.logEraseSize ≠ 0 then op.eraseOpcode else res.eraseOpcode
          eraseBlockTimeout := if op.logEraseSize ≠ 0 ∧ ptableLen ≥ 10
            then blockTimeout ptable op.eraseTimeShift else res.eraseBlockTimeout } := by
  unfold takeErase
  by_cases hop : op.logEraseSize ≠ 0
  · by_cases hlen : ptableLen ≥ 10
    · simp only [hop, hlen, and_self, if_true, ne_eq, not_false_eq_true]
      refine ⟨?_, trivial⟩
      intro k hk
      simp only [List.mem_cons, List.not_mem_nil, or_false, or_self] at hk
      omega
    · simp only [hop, hlen, and_false, if_false, if_true, ne_eq, not_false_eq_true]
      exact ⟨nofun, trivial⟩
  · simp only [hop, false_and, if_false]
    exact ⟨nofun, trivial⟩

theorem takeChip_spec (ptable : Nat → BitVec 32) (ptableLen : Nat) (res : OpParameters) :
    (∀ k ∈ (takeChip ptable ptableLen res).1, k < ptableLen) ∧
      ∃ timeout page, (takeChip ptable ptableLen res).2 =
        { res with eraseChipTimeout := timeout, logPageSize := page } := by
  unfold takeChip
  by_cases hlen : ptableLen ≥ 11
  · rw [if_pos hlen]
    refine ⟨?_, _, _, rfl⟩
    intro k hk
    simp only [List.mem_cons, List.not_mem_nil, or_false, or_self] at hk
    omega
  · rw [if_neg hlen]
    exact ⟨nofun, _, _, rfl⟩

/-- The erase operation the parser finds in a table of this length. -/
def foundErase (ptable : Nat → BitVec 32) (ptableLen : Nat) : List Nat × EraseOp :=
  if ptableLen ≥ 9 then eraseLoop ptable eraseLookup ⟨0, 0, 0⟩ else ([], ⟨0, 0, 0⟩)

theorem foundErase_reads : ∀ k ∈ (foundErase ptable ptableLen).1, k < ptableLen := by
  unfold foundErase
  by_cases hlen : ptableLen ≥ 9
  · rw [if_pos hlen]
    intro k hk
    obtain ⟨l, hl, rfl⟩ := eraseLoop_reads eraseLookup _ k hk
    have hidx : ∀ l ∈ eraseLookup, l.sizeIdx < 9 := by decide
    exact Nat.lt_of_lt_of_le (hidx l hl) hlen
  · rw [if_neg hlen]
    exact nofun

/-- The operation found is a largest one, if any of the four is described. -/
theorem foundErase_largest (hlen : 9 ≤ ptableLen) (h : ∃ l ∈ eraseLookup, eraseSize ptable l ≠ 0) :
    ∃ l ∈ eraseLookup, (∀ l' ∈ eraseLookup, eraseSize ptable l' ≤ eraseSize ptable l) ∧
      eraseSize ptable l ≠ 0 ∧ (foundErase ptable ptableLen).2 = eraseOp ptable l := by
  rw [foundErase, if_pos hlen]
  rcases eraseLoop_largest ptable eraseLookup ⟨0, 0, 0⟩ with
    ⟨-, hall⟩ | ⟨l, hl, hop, hpos, hall⟩
  · obtain ⟨l, hl, hne⟩ := h
    exact absurd (BitVec.le_zero_iff.mp (hall l hl)) hne
  · exact ⟨l, hl, hall, fun heq => BitVec.not_lt_zero (heq ▸ hpos), hop⟩

/-- A chip of a supported size: the mode, the erase operation and the times, one after another. -/
theorem parseTable_supported {size : BitVec 8} (hsize : chipSize (ptable 1) = some size)
    (hres : res.readModeCyc = 0) :
    ∃ res₁ : OpParameters,
      (res₁.readIoType = .io111 ∧ res₁.readOpcode = 0x3 ∧ res₁.readDummy = 0 ∧
        res₁.readModeCyc = 0) ∧
      parseTable ptable ptableLen res tryMultiIoCmd =
        let mode := readMode ptable ptableLen res₁ (considered tryMultiIoCmd)
        let op := foundErase ptable ptableLen
        let erase := takeErase ptable ptableLen op.2 mode.2
        let chip := takeChip ptable ptableLen erase.2
        ⟨[0, 1] ++ mode.1 ++ op.1 ++ erase.1 ++ chip.1, chip.2, EOK⟩ := by
  refine ⟨_, ?_, by simp only [parseTable, hsize]; rfl⟩
  exact ⟨rfl, rfl, rfl, hres⟩

theorem firstReads (hlen : 2 ≤ ptableLen) : ∀ k ∈ [0, 1], k < ptableLen := by
  intro k hk
  simp only [List.mem_cons, List.not_mem_nil, or_false] at hk
  omega

/-- Only the parameters of a mode may be read outside of the table. -/
theorem reads_lt_iff (hlen : 2 ≤ ptableLen) (res₁ : OpParameters) :
    let mode := readMode ptable ptableLen res₁ (considered tryMultiIoCmd)
    let op := foundErase ptable ptableLen
    let erase := takeErase ptable ptableLen op.2 mode.2
    (∀ k ∈ [0, 1] ++ mode.1 ++ op.1 ++ erase.1 ++ (takeChip ptable ptableLen erase.2).1,
        k < ptableLen) ↔
      ∀ i, LastMarked ptable ptableLen (considered tryMultiIoCmd) i →
        (operationLookup i).opcodeIdx < ptableLen := by
  have hdown := considered_pairwise tryMultiIoCmd
  constructor
  · intro hreads i hi
    refine (readMode_marked res₁ hdown hi).2.mp ?_
    intro k hk
    refine hreads k ?_
    simp only [List.mem_append]
    exact Or.inl (Or.inl (Or.inl (Or.inr hk)))
  · intro hinside
    have hmode : ∀ k ∈ (readMode ptable ptableLen res₁ (considered tryMultiIoCmd)).1,
        k < ptableLen := by
      rcases exists_lastMarked ptable ptableLen hdown with hnone | ⟨i, hi⟩
      · exact (readMode_unmarked hnone).2
      · exact (readMode_marked res₁ hdown hi).2.mpr (hinside i hi)
    intro k hk
    simp only [List.mem_append] at hk
    rcases hk with (((hk | hk) | hk) | hk) | hk
    · exact firstReads hlen k hk
    · exact hmode k hk
    · exact foundErase_reads k hk
    · exact (takeErase_spec ptable ptableLen _ _).1 k hk
    · exact (takeChip_spec ptable ptableLen _).1 k hk

/-- The part of the parser behind the search does right by the table exactly when the
parameters it takes are inside. -/
theorem parseTable_right_iff (hlen : 2 ≤ ptableLen) (hres : res.readModeCyc = 0) :
    TableRight ptable ptableLen (considered tryMultiIoCmd)
        (parseTable ptable ptableLen res tryMultiIoCmd) ↔
      ((chipSize (ptable 1)).isSome →
        ∀ i, LastMarked ptable ptableLen (considered tryMultiIoCmd) i →
          (operationLookup i).opcodeIdx < ptableLen) := by
  cases hsize : chipSize (ptable 1) with
  | none =>
      refine iff_of_true ?_ nofun
      simp only [parseTable, hsize]
      exact ⟨firstReads hlen, nofun, nofun⟩
  | some size =>
      simp only [Option.isSome_some, forall_const]
      obtain ⟨res₁, hres₁, hparse⟩ :=
        @parseTable_supported res tryMultiIoCmd ptable ptableLen size hsize hres
      have hres₂ := (takeErase_spec ptable ptableLen (foundErase ptable ptableLen).2
        (readMode ptable ptableLen res₁ (considered tryMultiIoCmd)).2).2
      obtain ⟨-, timeout, page, hres₃⟩ := takeChip_spec ptable ptableLen
        (takeErase ptable ptableLen (foundErase ptable ptableLen).2
          (readMode ptable ptableLen res₁ (considered tryMultiIoCmd)).2).2
      rw [hres₂] at hres₃
      rw [hparse]
      refine Iff.trans ?_ (@reads_lt_iff tryMultiIoCmd ptable ptableLen hlen res₁)
      refine ⟨TableRight.reads, fun hreads => ⟨hreads, ?_, ?_⟩⟩
      · intro _
        simp only [hres₂, hres₃]
        rcases exists_lastMarked ptable ptableLen (considered_pairwise tryMultiIoCmd) with
          hnone | ⟨i, hi⟩
        · right
          rw [(readMode_unmarked hnone).1]
          exact ⟨hnone, hres₁⟩
        · left
          rw [(readMode_marked res₁ (considered_pairwise tryMultiIoCmd) hi).1]
          exact ⟨i, hi, rfl, rfl, rfl, rfl⟩
      · intro _ hnine hdescribed
        obtain ⟨l, hl, hall, hne, hop⟩ := foundErase_largest hnine hdescribed
        have hsize' : (eraseOp ptable l).logEraseSize ≠ 0 := hne
        simp only [hres₂, hres₃]
        simp only [hop]
        refine ⟨l, hl, hall, if_pos hsize', if_pos hsize', ?_⟩
        intro hten
        exact if_pos ⟨hsize', hten⟩

end

theorem Parsable.parse {ptable ptableLen : Nat} (h : Parsable data ptable ptableLen) :
    parseSfdp data res tryMultiIoCmd =
      parseTable (fun i => data (ptable + i)) ptableLen res tryMultiIoCmd := by
  rw [parseSfdp, if_neg (not_not.mpr h.signature), if_neg (not_not.mpr h.revision), h.found]
  exact if_neg (Nat.not_lt.mpr h.length)

/-- The parser does right by the tables exactly when the parameters of the last type that is
marked are inside the table. -/
theorem sfdpRight_iff (hres : res.readModeCyc = 0) :
    SfdpRight data res tryMultiIoCmd ↔ ModeInside data tryMultiIoCmd := by
  constructor
  · intro hright ptable ptableLen i hparsable hi
    have htable := hright ptable ptableLen hparsable.found
    rw [hparsable.parse] at htable
    exact (parseTable_right_iff hparsable.length hres).mp htable hparsable.size i hi
  · intro hinside ptable ptableLen hfound
    -- an image that is refused before its table is looked at
    have hrefused {p : Parsed} (hreads : p.reads = []) (hret : p.ret = -EINVAL) :
        TableRight (fun i => data (ptable + i)) ptableLen (considered tryMultiIoCmd) p := by
      have hne : p.ret ≠ EOK := by rw [hret]; decide
      refine ⟨?_, fun h => absurd h hne, fun h => absurd h hne⟩
      rw [hreads]
      exact nofun
    by_cases hsig : data 0 = 0x50444653
    · by_cases hrev : (data 1 >>> 8) &&& 0xff = 0x01
      · by_cases hlen : ptableLen < 2
        · have hparse : parseSfdp data res tryMultiIoCmd = ⟨[], res, -EINVAL⟩ := by
            rw [parseSfdp, if_neg (not_not.mpr hsig), if_neg (not_not.mpr hrev), hfound]
            exact if_pos hlen
          exact hrefused (congrArg Parsed.reads hparse) (congrArg Parsed.ret hparse)
        · have hparse : parseSfdp data res tryMultiIoCmd =
              parseTable (fun i => data (ptable + i)) ptableLen res tryMultiIoCmd := by
            rw [parseSfdp, if_neg (not_not.mpr hsig), if_neg (not_not.mpr hrev), hfound]
            exact if_neg hlen
          rw [hparse, parseTable_right_iff (Nat.le_of_not_lt hlen) hres]
          intro hsize i hi
          exact hinside ptable ptableLen i ⟨hsig, hrev, hfound, Nat.le_of_not_lt hlen, hsize⟩ hi
      · have hparse : parseSfdp data res tryMultiIoCmd = ⟨[], res, -EINVAL⟩ := by
          rw [parseSfdp, if_neg (not_not.mpr hsig), if_pos hrev]
        exact hrefused (congrArg Parsed.reads hparse) (congrArg Parsed.ret hparse)
    · have hparse : parseSfdp data res tryMultiIoCmd = ⟨[], res, -EINVAL⟩ := by
        rw [parseSfdp, if_pos hsig]
      exact hrefused (congrArg Parsed.reads hparse) (congrArg Parsed.ret hparse)

end

/-- An image with one header and a table of two dwords, which supports reads 1-1-2. -/
def shortTable : Nat → BitVec 32 :=
  fun i => [0x50444653, 0x00000100, 0x02010000, 0xff000010, 0x00010000, 0x07ffffff].getD i 0

/-- The default parameters have no mode cycles. -/
theorem sfdpRight_iff_default :
    SfdpRight shortTable fillDefaultParams true ↔ ModeInside shortTable true :=
  sfdpRight_iff rfl

theorem sfdpRight_shortTable : ¬SfdpRight shortTable fillDefaultParams true := by
  intro h
  have hfound : findTable shortTable = some (4, 2) := by decide +kernel
  have hread : 3 ∈ (parseSfdp shortTable fillDefaultParams true).reads := by decide +kernel
  exact absurd ((h 4 2 hfound).reads 3 hread) (by decide)

end Plo.Devices.Sfdp
