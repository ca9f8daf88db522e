import Plo.Sbi.FdtScan

/-!
When the calls stay inside the structure block. The positions of the tokens are known from
where the first of them starts, so that a call ends in the block exactly if the tokens up to the
one at which it stops are in it.
-/
namespace Plo.Sbi
open Lib

section
variable {fdt : Fdt}

/-- The length of a property in bytes is 0 for four lengths of its data. -/
theorem fdtConsumeProp_eq_zero_iff (pos : Nat) :
    fdtConsumeProp fdt pos = 0 ↔ 0xfffffff0 < fdtPropLen fdt pos ∧ fdtPropLen fdt pos ≤ 0xfffffff4 := by
  have hlt := (fdt32ToCpu fdt (pos + 4)).isLt
  rw [fdtConsumeProp, fdtPropLen, ceil4_eq (by omega)]
  omega

theorem le_tokenPos (start i : Nat) : start ≤ tokenPos fdt start i := by
  induction i with
  | zero => exact Nat.le_refl _
  | succ i ih =>
      rw [tokenPos]
      split
      · omega
      · omega

/-- The position grows over a token unless it is a property whose length wraps around. -/
theorem tokenPos_ahead (start i : Nat) :
    tokenPos fdt start i < tokenPos fdt start (i + 1) ↔
      ¬LengthWraps fdt (tokenPos fdt start i) := by
  rw [tokenPos]
  by_cases hprop : fdt32ToCpu fdt (tokenPos fdt start i) = FDT_PROP
  · rw [if_pos hprop, LengthWraps, ← fdtConsumeProp_eq_zero_iff]
    constructor
    · intro hlt h
      omega
    · intro h
      have hne : fdtConsumeProp fdt (tokenPos fdt start i) ≠ 0 := fun hzero => h ⟨hprop, hzero⟩
      omega
  · rw [if_neg hprop]
    exact iff_of_true (by omega) fun h => hprop h.1

end

section
variable {fdt : Fdt} {start : Nat} {depth : Int}

theorem nextStep_stop (offset : Int) {i : Nat} (h : NextStops fdt start depth i) :
    ∃ r, fdtNextStep fdt offset (.token (tokenPos fdt start i), depth - endNodes fdt start i) =
      .inr r := by
  rcases h with h | h | ⟨h, hdepth⟩
  · have h' : fdt32ToCpu fdt (tokenPos fdt start i) = FDT_BEGIN_NODE := h
    simp only [fdtNextStep, h', if_true]
    exact ⟨_, rfl⟩
  · have h' : fdt32ToCpu fdt (tokenPos fdt start i) = FDT_END := h
    have hbegin : FDT_END ≠ FDT_BEGIN_NODE := by decide
    have hend : FDT_END ≠ FDT_END_NODE := by decide
    simp only [fdtNextStep, h', if_neg hbegin, if_neg hend, if_true]
    exact ⟨_, rfl⟩
  · have h' : fdt32ToCpu fdt (tokenPos fdt start i) = FDT_END_NODE := h
    have hbegin : FDT_END_NODE ≠ FDT_BEGIN_NODE := by decide
    have hneg : depth - endNodes fdt start i < 0 := by omega
    simp only [fdtNextStep, h', if_neg hbegin, if_pos hneg, if_true]
    exact ⟨_, rfl⟩

theorem nextStep_next (offset : Int) {i : Nat} (h : ¬NextStops fdt start depth i) :
    fdtNextStep fdt offset (.token (tokenPos fdt start i), depth - endNodes fdt start i) =
      .inl (.token (tokenPos fdt start (i + 1)), depth - endNodes fdt start (i + 1)) := by
  rw [NextStops, not_or, not_or, not_and] at h
  obtain ⟨hbegin, hend, hdepth⟩ := h
  have hbegin' : ¬fdt32ToCpu fdt (tokenPos fdt start i) = FDT_BEGIN_NODE := hbegin
  have hend' : ¬fdt32ToCpu fdt (tokenPos fdt start i) = FDT_END := hend
  simp only [fdtNextStep, if_neg hbegin', if_neg hend', tokenPos, endNodes]
  by_cases hnode : tokenAt fdt start i = FDT_END_NODE
  · have hnode' : fdt32ToCpu fdt (tokenPos fdt start i) = FDT_END_NODE := hnode
    have hprop : FDT_END_NODE ≠ FDT_PROP := by decide
    have hneg : ¬depth - endNodes fdt start i < 0 := by
      have hle := hdepth hnode
      omega
    have hnext : depth - endNodes fdt start i - 1 = depth - (endNodes fdt start i + 1 : Nat) := by
      omega
    simp only [if_pos hnode, hnode', if_true, if_neg hneg, if_neg hprop, hnext]
  · have hnode' : ¬fdt32ToCpu fdt (tokenPos fdt start i) = FDT_END_NODE := hnode
    simp only [if_neg hnode, if_neg hnode', Nat.add_zero]
    by_cases hprop : fdt32ToCpu fdt (tokenPos fdt start i) = FDT_PROP
    · simp only [if_pos hprop]
    · simp only [if_neg hprop]

/-- The tokens are read in the block. -/
theorem next_inside (offset : Int) (hstart : fdt.dtStruct ≤ start) (i : Nat) (d : Int) :
    (nextNodeScanner fdt offset).Inside fdt.dtStruct fdt.blockEnd (.token (tokenPos fdt start i), d) ↔
      tokenPos fdt start i + (if tokenAt fdt start i = FDT_PROP then 8 else 4) ≤ fdt.blockEnd := by
  have hle := Nat.le_trans hstart (@le_tokenPos fdt start i)
  rw [Scanner.Inside, nextNodeScanner]
  by_cases hprop : tokenAt fdt start i = FDT_PROP
  · have hprop' : fdt32ToCpu fdt (tokenPos fdt start i) = FDT_PROP := hprop
    simp only [fdtNextReads, if_pos hprop, if_pos hprop', List.forall_mem_cons, List.not_mem_nil,
      false_implies, implies_true, and_true]
    omega
  · have hprop' : ¬fdt32ToCpu fdt (tokenPos fdt start i) = FDT_PROP := hprop
    simp only [fdtNextReads, if_neg hprop, if_neg hprop', List.forall_mem_cons, List.not_mem_nil,
      false_implies, implies_true, and_true]
    omega

/-- The loop over the tokens stays in the block, which it only does if it starts in it. -/
theorem next_tokens (offset : Int) (hstart : fdt.dtStruct ≤ start) :
    (nextNodeScanner fdt offset).Bounded fdt.dtStruct fdt.blockEnd (.token start, depth) ↔
      WholeTokens fdt (NextStops fdt start depth) 8 start := by
  have hfirst : (Phase.token start, depth) =
      (Phase.token (tokenPos fdt start 0), depth - endNodes fdt start 0) := by
    simp only [tokenPos, endNodes, Nat.cast_zero, Int.sub_zero]
  have hiff := @Scanner.bounded_iff _ _ (nextNodeScanner fdt offset) fdt.dtStruct fdt.blockEnd
    (fun i => (Phase.token (tokenPos fdt start i), depth - endNodes fdt start i))
    (NextStops fdt start depth) (fun i => nextStep_stop offset) fun i => nextStep_next offset
  rw [hfirst, hiff, WholeTokens]
  refine exists_congr fun k => and_congr_right fun _ => and_congr ?_ ?_
  · refine forall₂_congr fun i _ => and_congr_right fun _ => ?_
    exact tokenPos_ahead start i
  · exact forall₂_congr fun i _ => next_inside offset hstart i _

end

section
variable {fdt : Fdt} {dtStrings start : Nat} {name : List UInt8}

theorem getStep_stop (offset : Nat) {i : Nat} (h : GetStops fdt dtStrings name start i) :
    ∃ r, fdtGetStep fdt dtStrings offset name (.token (tokenPos fdt start i)) = .inr r := by
  have hnode {w : BitVec 32} (h : tokenAt fdt start i = w) (hprop : w ≠ FDT_PROP)
      (hw : w = FDT_BEGIN_NODE ∨ w = FDT_END_NODE ∨ w = FDT_END) :
      ∃ r, fdtGetStep fdt dtStrings offset name (.token (tokenPos fdt start i)) = .inr r := by
    have h' : fdt32ToCpu fdt (tokenPos fdt start i) = w := h
    simp only [fdtGetStep, h', if_neg hprop, if_pos hw]
    exact ⟨_, rfl⟩
  rcases h with h | h | h | ⟨h, hname⟩
  · exact hnode h (by decide) (Or.inl rfl)
  · exact hnode h (by decide) (Or.inr (Or.inr rfl))
  · exact hnode h (by decide) (Or.inr (Or.inl rfl))
  · have h' : fdt32ToCpu fdt (tokenPos fdt start i) = FDT_PROP := h
    simp only [fdtGetStep, if_pos h', if_pos hname]
    exact ⟨_, rfl⟩

theorem getStep_next (offset : Nat) {i : Nat} (h : ¬GetStops fdt dtStrings name start i) :
    fdtGetStep fdt dtStrings offset name (.token (tokenPos fdt start i)) =
      .inl (.token (tokenPos fdt start (i + 1))) := by
  rw [GetStops, not_or, not_or, not_or, not_and] at h
  obtain ⟨hbegin, hend, hnode, hname⟩ := h
  by_cases hprop : fdt32ToCpu fdt (tokenPos fdt start i) = FDT_PROP
  · simp only [fdtGetStep, tokenPos, if_pos hprop, if_neg (hname hprop)]
  · have hstop : ¬(fdt32ToCpu fdt (tokenPos fdt start i) = FDT_BEGIN_NODE ∨
        fdt32ToCpu fdt (tokenPos fdt start i) = FDT_END_NODE ∨
        fdt32ToCpu fdt (tokenPos fdt start i) = FDT_END) := by
      rintro (h | h | h)
      · exact hbegin h
      · exact hnode h
      · exact hend h
    simp only [fdtGetStep, tokenPos, if_neg hprop, if_neg hstop]

theorem get_inside (offset : Nat) (hstart : fdt.dtStruct ≤ start) (i : Nat) :
    (getPropertyScanner fdt dtStrings offset name).Inside fdt.dtStruct fdt.blockEnd
        (.token (tokenPos fdt start i)) ↔
      tokenPos fdt start i + (if tokenAt fdt start i = FDT_PROP then 12 else 4) ≤ fdt.blockEnd := by
  have hle := Nat.le_trans hstart (@le_tokenPos fdt start i)
  rw [Scanner.Inside, getPropertyScanner]
  by_cases hprop : tokenAt fdt start i = FDT_PROP
  · have hprop' : fdt32ToCpu fdt (tokenPos fdt start i) = FDT_PROP := hprop
    by_cases hname : fdtPropNamed fdt dtStrings name (tokenPos fdt start i) = true
    · simp only [fdtGetReads, if_pos hprop, if_pos hprop', if_pos hname, List.forall_mem_cons,
        List.not_mem_nil, false_implies, implies_true, and_true]
      omega
    · simp only [fdtGetReads, if_pos hprop, if_pos hprop', if_neg hname, List.forall_mem_cons,
        List.not_mem_nil, false_implies, implies_true, and_true]
      omega
  · have hprop' : ¬fdt32ToCpu fdt (tokenPos fdt start i) = FDT_PROP := hprop
    simp only [fdtGetReads, if_neg hprop, if_neg hprop', List.forall_mem_cons, List.not_mem_nil,
      false_implies, implies_true, and_true]
    omega

theorem get_tokens (offset : Nat) (hstart : fdt.dtStruct ≤ start) :
    (getPropertyScanner fdt dtStrings offset name).Bounded fdt.dtStruct fdt.blockEnd
        (.token start) ↔
      WholeTokens fdt (GetStops fdt dtStrings name start) 12 start := by
  have hiff := @Scanner.bounded_iff _ _ (getPropertyScanner fdt dtStrings offset name) fdt.dtStruct
    fdt.blockEnd (fun i => Phase.token (tokenPos fdt start i)) (GetStops fdt dtStrings name start)
    (fun i => getStep_stop offset) fun i => getStep_next offset
  have hfirst : Phase.token start = Phase.token (tokenPos fdt start 0) := rfl
  rw [hfirst, hiff, WholeTokens]
  refine exists_congr fun k => and_congr_right fun _ => and_congr ?_ ?_
  · refine forall₂_congr fun i _ => and_congr_right fun _ => ?_
    exact tokenPos_ahead start i
  · exact forall₂_congr fun i _ => get_inside offset hstart i

end

section
variable {fdt : Fdt} {σ ρ : Type} {S : Scanner σ ρ} {at_ : Phase → σ}

/-- A name is read to its end, which lies in the block. -/
theorem bounded_name (hstep : ∀ p, S.step (at_ (.name p)) = .inl (at_ (fdtNameStep fdt p)))
    (hreads : ∀ p, S.reads (at_ (.name p)) = [(p, 1)])
    (hahead : ∀ p ph, S.Ahead (at_ (.name p)) (at_ ph)) {p : Nat} (hp : fdt.dtStruct ≤ p) :
    S.Bounded fdt.dtStruct fdt.blockEnd (at_ (.name p)) ↔
      ∃ n, (∀ i < n, fdt.mem (p + i) ≠ 0) ∧ fdt.mem (p + n) = 0 ∧ p + n < fdt.blockEnd ∧
        S.Bounded fdt.dtStruct fdt.blockEnd (at_ (.token (ceil4 (p + n + 1)))) := by
  have hbyte (i : Nat) (h : fdt.mem (p + i) ≠ 0) :
      S.step (at_ (.name (p + i))) = .inl (at_ (.name (p + (i + 1)))) := by
    rw [hstep, fdtNameStep, if_neg h, Nat.add_assoc]
  have hend (n : Nat) (h : fdt.mem (p + n) = 0) :
      S.step (at_ (.name (p + n))) = .inl (at_ (.token (ceil4 (p + n + 1)))) := by
    rw [hstep, fdtNameStep, if_pos h]
  have hinside (i : Nat) : S.Inside fdt.dtStruct fdt.blockEnd (at_ (.name (p + i))) ↔
      p + i < fdt.blockEnd := by
    rw [Scanner.Inside, hreads]
    simp only [List.forall_mem_singleton]
    omega
  have hpath {n : Nat} (hname : ∀ i < n, fdt.mem (p + i) ≠ 0) (hnul : fdt.mem (p + n) = 0) :
      S.Bounded fdt.dtStruct fdt.blockEnd (at_ (.name p)) ↔ p + n < fdt.blockEnd ∧
        S.Bounded fdt.dtStruct fdt.blockEnd (at_ (.token (ceil4 (p + n + 1)))) := by
    have hwalk := @Scanner.bounded_path _ _ S fdt.dtStruct fdt.blockEnd
      (fun i => at_ (.name (p + i))) n fun i hi => hbyte i (hname i hi)
    rw [Nat.add_zero] at hwalk
    rw [hwalk, Scanner.bounded_next (hend n hnul), hinside]
    constructor
    · rintro ⟨-, hlt, -, hrest⟩
      exact ⟨hlt, hrest⟩
    · rintro ⟨hlt, hrest⟩
      refine ⟨fun i hi => ⟨?_, hahead _ _⟩, hlt, hahead _ _, hrest⟩
      rw [hinside]
      omega
  constructor
  · intro h
    have hends := h
    obtain ⟨turns, states, r, hrun, -⟩ := hends
    obtain ⟨n, -, hnul, hbefore⟩ := @Scanner.run_stops _ _ S (fun i => at_ (.name (p + i)))
      (fun i => fdt.mem (p + i) = 0) hbyte turns 0 states r hrun
    have hname (i : Nat) (hi : i < n) : fdt.mem (p + i) ≠ 0 := hbefore i (Nat.zero_le i) hi
    obtain ⟨hlt, hrest⟩ := (hpath hname hnul).mp h
    exact ⟨n, hname, hnul, hlt, hrest⟩
  · rintro ⟨n, hname, hnul, hlt, hrest⟩
    exact (hpath hname hnul).mpr ⟨hlt, hrest⟩

/-- Behind the beginning of a node, the tokens start where its name ends. -/
theorem bounded_node (hstep : ∀ p, S.step (at_ (.name p)) = .inl (at_ (fdtNameStep fdt p)))
    (hreads : ∀ p, S.reads (at_ (.name p)) = [(p, 1)])
    (hahead : ∀ p ph, S.Ahead (at_ (.name p)) (at_ ph)) {whole : Nat → Prop}
    (hfirst : ∀ start, S.Bounded fdt.dtStruct fdt.blockEnd (at_ (.token start)) →
      fdt.dtStruct ≤ start)
    (hwhole : ∀ start, fdt.dtStruct ≤ start →
      (S.Bounded fdt.dtStruct fdt.blockEnd (at_ (.token start)) ↔ whole start))
    {pos : Nat} (hpos : fdt.dtStruct ≤ pos) (htoken : fdt32ToCpu fdt pos = FDT_BEGIN_NODE) :
    S.Bounded fdt.dtStruct fdt.blockEnd (at_ (.name (pos + 4))) ↔
      ∃ start, TokensFrom fdt pos start ∧ whole start := by
  have hp : fdt.dtStruct ≤ pos + 4 := by omega
  rw [bounded_name hstep hreads hahead hp]
  simp only [TokensFrom, if_pos htoken]
  constructor
  · rintro ⟨n, hname, hnul, hlt, hrest⟩
    have hstart := hfirst _ hrest
    exact ⟨_, ⟨n, hname, hnul, hlt, rfl, hstart⟩, (hwhole _ hstart).mp hrest⟩
  · rintro ⟨_, ⟨n, hname, hnul, hlt, rfl, hstart⟩, hrest⟩
    exact ⟨n, hname, hnul, hlt, (hwhole _ hstart).mpr hrest⟩

end

section
variable {fdt : Fdt} {offset : Int}

/-- Behind the check of the offset, the token there says how the call goes on. -/
theorem nextEntry_step {depth : Int}
    (h : ¬(offset < 0 ∨ (fdt.sizeDtStruct.toNat : Int) ≤ offset ∨ offset % 4 ≠ 0)) :
    (nextNodeScanner fdt offset).step (.entry, depth) =
      if fdt32ToCpu fdt (fdt.dtStruct + offset.toNat) = FDT_BEGIN_NODE then
        .inl (.name (fdt.dtStruct + offset.toNat + 4), if offset = 0 then depth + 1 else depth)
      else if offset ≠ 0 then .inr (FDT_EBADOFFS, depth)
      else .inl (.token (fdt.dtStruct + offset.toNat), depth) := if_neg h

theorem token_inside {pos : Nat} {depth : Int} (h : (nextNodeScanner fdt offset).Inside fdt.dtStruct
    fdt.blockEnd (.token pos, depth)) : fdt.dtStruct ≤ pos ∧ pos + 4 ≤ fdt.blockEnd := by
  have hmem : (pos, 4) ∈ fdtNextReads fdt offset (.token pos) := by
    rw [fdtNextReads]
    split <;> exact List.mem_cons_self
  exact h _ hmem

/-- A turn of the loop of `fdt_nextNode`. -/
theorem fdtNextLoop_turn (fuel pos : Nat) (depth : Int) :
    match fdtNextStep fdt offset (.token pos, depth) with
    | .inr r => fdtNextLoop fdt (fuel + 1) pos depth = some r
    | .inl s => ∃ pos' depth', s = (.token pos', depth') ∧
        fdtNextLoop fdt (fuel + 1) pos depth = fdtNextLoop fdt fuel pos' depth' := by
  rw [fdtNextLoop]
  simp only [fdtNextStep]
  by_cases hbegin : fdt32ToCpu fdt pos = FDT_BEGIN_NODE
  · simp only [if_pos hbegin]
  · by_cases hnode : fdt32ToCpu fdt pos = FDT_END_NODE
    · by_cases hneg : depth < 0
      · simp only [if_neg hbegin, if_pos hnode, if_pos hneg]
      · simp only [if_neg hbegin, if_pos hnode, if_neg hneg]
        exact ⟨_, _, rfl, rfl⟩
    · by_cases hend : fdt32ToCpu fdt pos = FDT_END
      · simp only [if_neg hbegin, if_neg hnode, if_pos hend]
      · by_cases hprop : fdt32ToCpu fdt pos = FDT_PROP
        · simp only [if_neg hbegin, if_neg hnode, if_neg hend, if_pos hprop]
          exact ⟨_, _, rfl, rfl⟩
        · simp only [if_neg hbegin, if_neg hnode, if_neg hend, if_neg hprop]
          exact ⟨_, _, rfl, rfl⟩

/-- A run over the tokens that goes ahead inside the block has no more turns than the block has
bytes, and the loop comes to its result. -/
theorem run_tokens {n pos : Nat} {depth : Int} {states : List (Phase × Int)} {r : Int × Int}
    (hrun : (nextNodeScanner fdt offset).run n (.token pos, depth) = some (states, r))
    (hchain : states.IsChain (nextNodeScanner fdt offset).Ahead)
    (hinside : ∀ s ∈ states, (nextNodeScanner fdt offset).Inside fdt.dtStruct fdt.blockEnd s) :
    pos + states.length ≤ fdt.blockEnd ∧
      ∀ fuel, states.length ≤ fuel → fdtNextLoop fdt fuel pos depth = some r := by
  induction n generalizing pos depth states with
  | zero => cases hrun
  | succ n ih =>
      obtain ⟨l, rfl⟩ := Scanner.run_head hrun
      have hread := (token_inside (hinside _ List.mem_cons_self)).2
      have hturn (fuel : Nat) := @fdtNextLoop_turn fdt offset fuel pos depth
      cases hstep : fdtNextStep fdt offset (.token pos, depth) with
      | inr r' =>
          have hstep' : (nextNodeScanner fdt offset).step (.token pos, depth) = .inr r' := hstep
          obtain ⟨hl, rfl⟩ := Scanner.run_last hstep' hrun
          rw [hl]
          refine ⟨by rw [List.length_singleton]; omega, ?_⟩
          intro fuel hfuel
          rw [List.length_singleton] at hfuel
          obtain ⟨fuel, rfl⟩ : ∃ m, fuel = m + 1 := ⟨fuel - 1, by omega⟩
          have h := hturn fuel
          rw [hstep] at h
          exact h
      | inl s =>
          obtain ⟨pos', depth', rfl, -⟩ : ∃ pos' depth', s = (.token pos', depth') ∧ True := by
            have h := hturn 0
            rw [hstep] at h
            obtain ⟨pos', depth', hs, -⟩ := h
            exact ⟨pos', depth', hs, trivial⟩
          have hstep' : (nextNodeScanner fdt offset).step (.token pos, depth) =
              .inl (.token pos', depth') := hstep
          obtain ⟨l', heq, hl⟩ := Scanner.run_next hstep' hrun
          obtain rfl := List.tail_eq_of_cons_eq heq
          obtain ⟨l, rfl⟩ := Scanner.run_head hl
          obtain ⟨hahead, hchain⟩ := List.isChain_cons_cons.mp hchain
          have hlt : pos < pos' := hahead
          obtain ⟨hlen, hloop⟩ :=
            ih hl hchain fun s hs => hinside s (List.mem_cons_of_mem _ hs)
          refine ⟨by rw [List.length_cons]; omega, ?_⟩
          intro fuel hfuel
          rw [List.length_cons] at hfuel
          obtain ⟨fuel, rfl⟩ : ∃ m, fuel = m + 1 := ⟨fuel - 1, by omega⟩
          have h := hturn fuel
          rw [hstep] at h
          obtain ⟨pos'', depth'', heq, hnext⟩ := h
          cases heq
          rw [hnext]
          exact hloop fuel (by omega)

/-- A run over the bytes of a name comes to the tokens behind it. -/
theorem run_name {n p : Nat} {depth : Int} {states : List (Phase × Int)} {r : Int × Int}
    (hrun : (nextNodeScanner fdt offset).run n (.name p, depth) = some (states, r))
    (hchain : states.IsChain (nextNodeScanner fdt offset).Ahead)
    (hinside : ∀ s ∈ states, (nextNodeScanner fdt offset).Inside fdt.dtStruct fdt.blockEnd s) :
    ∃ m, p + m < fdt.blockEnd ∧ (∀ fuel, m < fuel → fdtSkipName fdt fuel p = some (p + m + 1)) ∧
      ∃ n' l, (nextNodeScanner fdt offset).run n' (.token (ceil4 (p + m + 1)), depth) = some (l, r) ∧
        l.IsChain (nextNodeScanner fdt offset).Ahead ∧
        ∀ s ∈ l, (nextNodeScanner fdt offset).Inside fdt.dtStruct fdt.blockEnd s := by
  induction n generalizing p states with
  | zero => cases hrun
  | succ n ih =>
      have hstep : (nextNodeScanner fdt offset).step (.name p, depth) =
          .inl (fdtNameStep fdt p, depth) := rfl
      obtain ⟨l, rfl, hl⟩ := Scanner.run_next hstep hrun
      have hread : p + 1 ≤ fdt.blockEnd :=
        (hinside _ List.mem_cons_self (p, 1) (List.mem_singleton.mpr rfl)).2
      have hinside' (s : Phase × Int) (hs : s ∈ l) := hinside s (List.mem_cons_of_mem _ hs)
      by_cases hnul : fdt.mem p = 0
      · rw [fdtNameStep, if_pos hnul] at hl
        refine ⟨0, hread, ?_, n, l, hl, hchain.tail, hinside'⟩
        intro fuel hfuel
        obtain ⟨fuel, rfl⟩ : ∃ m, fuel = m + 1 := ⟨fuel - 1, by omega⟩
        rw [fdtSkipName, if_pos hnul, Nat.add_zero]
      · rw [fdtNameStep, if_neg hnul] at hl
        obtain ⟨m, hm, hskip, n', l', hl', hrest⟩ := ih hl hchain.tail hinside'
        have hnext : p + 1 + m = p + (m + 1) := by omega
        rw [hnext] at hm hskip hl'
        refine ⟨m + 1, hm, ?_, n', l', hl', hrest⟩
        intro fuel hfuel
        obtain ⟨fuel, rfl⟩ : ∃ m, fuel = m + 1 := ⟨fuel - 1, by omega⟩
        rw [fdtSkipName, if_neg hnul]
        exact hskip fuel (by omega)

/-- A run that stays in the block ends with the result of `fdt_nextNode`. -/
theorem nextNodeScanner_result {n : Nat} {depth : Int} {states : List (Phase × Int)}
    {r : Int × Int} (hrun : (nextNodeScanner fdt offset).run n (.entry, depth) = some (states, r))
    (hchain : states.IsChain (nextNodeScanner fdt offset).Ahead)
    (hinside : ∀ s ∈ states, (nextNodeScanner fdt offset).Inside fdt.dtStruct fdt.blockEnd s) :
    fdtNextNode fdt offset depth = some r := by
  rw [fdtNextNode]
  by_cases hbad : offset < 0 ∨ (fdt.sizeDtStruct.toNat : Int) ≤ offset ∨ offset % 4 ≠ 0
  · have hstep : (nextNodeScanner fdt offset).step (.entry, depth) = .inr (FDT_EBADOFFS, depth) :=
      if_pos hbad
    rw [if_pos hbad, (Scanner.run_last hstep hrun).2]
  · have hstep := @nextEntry_step fdt offset depth hbad
    rw [if_neg hbad]
    dsimp only
    by_cases hbegin : fdt32ToCpu fdt (fdt.dtStruct + offset.toNat) = FDT_BEGIN_NODE
    · rw [if_pos hbegin] at hstep
      rw [if_neg fun h => h.2 hbegin, fdtTryConsumeNode, if_pos hbegin]
      cases n with
      | zero => cases hrun
      | succ n =>
          obtain ⟨l, rfl, hl⟩ := Scanner.run_next hstep hrun
          obtain ⟨m, hm, hskip, n', l', hl', hchain', hinside'⟩ := run_name hl hchain.tail
            fun s hs => hinside s (List.mem_cons_of_mem _ hs)
          have hsize : m < fdt.sizeDtStruct.toNat := by
            rw [Fdt.blockEnd] at hm
            omega
          obtain ⟨hlen, hloop⟩ := run_tokens hl' hchain' hinside'
          rw [hskip _ hsize, Option.map_some, Option.bind_some]
          refine hloop _ ?_
          have hstart : fdt.dtStruct ≤ ceil4 (fdt.dtStruct + offset.toNat + 4 + m + 1) := by
            obtain ⟨l'', rfl⟩ := Scanner.run_head hl'
            exact (token_inside (hinside' _ List.mem_cons_self)).1
          rw [Fdt.blockEnd] at hlen
          omega
    · rw [if_neg hbegin] at hstep
      by_cases hzero : offset = 0
      · rw [if_neg (not_not.mpr hzero)] at hstep
        rw [if_neg fun h => h.1 hzero, fdtTryConsumeNode, if_neg hbegin, Option.bind_some]
        cases n with
        | zero => cases hrun
        | succ n =>
            obtain ⟨l, rfl, hl⟩ := Scanner.run_next hstep hrun
            obtain ⟨hlen, hloop⟩ := run_tokens hl hchain.tail
              fun s hs => hinside s (List.mem_cons_of_mem _ hs)
            refine hloop _ ?_
            rw [Fdt.blockEnd] at hlen
            omega
      · rw [if_pos hzero] at hstep
        rw [if_pos ⟨hzero, hbegin⟩, (Scanner.run_last hstep hrun).2]

end

section
variable (fdt : Fdt)

/-- A call of `fdt_nextNode` ends in the block exactly if the tokens it goes over lie in it. -/
theorem nextNode_readable (offset depth : Int) :
    (nextNodeScanner fdt offset).Bounded fdt.dtStruct fdt.blockEnd (.entry, depth) ↔
      NextReadable fdt offset depth := by
  by_cases hbad : offset < 0 ∨ (fdt.sizeDtStruct.toNat : Int) ≤ offset ∨ offset % 4 ≠ 0
  · have hstep : (nextNodeScanner fdt offset).step (.entry, depth) = .inr (FDT_EBADOFFS, depth) :=
      if_pos hbad
    have hreads : (nextNodeScanner fdt offset).reads (.entry, depth) = [] := if_pos hbad
    rw [Scanner.bounded_done hstep, Scanner.Inside, hreads]
    exact iff_of_true nofun (Or.inl hbad)
  · have hpos : fdt.dtStruct ≤ fdt.dtStruct + offset.toNat := Nat.le_add_right _ _
    have hreads : (nextNodeScanner fdt offset).reads (.entry, depth) =
        [(fdt.dtStruct + offset.toNat, 4)] := if_neg hbad
    have hinside : (nextNodeScanner fdt offset).Inside fdt.dtStruct fdt.blockEnd (.entry, depth) ↔
        fdt.dtStruct + offset.toNat + 4 ≤ fdt.blockEnd := by
      rw [Scanner.Inside, hreads]
      simp only [List.forall_mem_singleton]
      omega
    have hstep := @nextEntry_step fdt offset depth hbad
    rw [NextReadable, or_iff_right hbad]
    by_cases hbegin : fdt32ToCpu fdt (fdt.dtStruct + offset.toNat) = FDT_BEGIN_NODE
    · have hdepth : (if offset = 0 ∧ fdt32ToCpu fdt fdt.dtStruct = FDT_BEGIN_NODE then depth + 1
          else depth) = if offset = 0 then depth + 1 else depth := by
        by_cases hzero : offset = 0
        · rw [hzero] at hbegin
          rw [if_pos hzero, if_pos ⟨hzero, hbegin⟩]
        · rw [if_neg hzero, if_neg fun h => hzero h.1]
      rw [if_pos hbegin] at hstep
      rw [Scanner.bounded_next hstep, hinside, hdepth]
      have hnode := @bounded_node fdt _ _ (nextNodeScanner fdt offset)
        (fun ph => (ph, if offset = 0 then depth + 1 else depth)) (fun p => rfl) (fun p => rfl)
        (fun p ph => trivial) _ ?_ (fun start hstart => next_tokens offset hstart) _ hpos hbegin
      · rw [hnode]
        refine and_congr_right fun _ => ?_
        rw [or_iff_right fun h => h.2 hbegin]
        exact and_iff_right trivial
      · intro start h
        exact (token_inside h.inside).1
    · rw [if_neg hbegin] at hstep
      by_cases hzero : offset = 0
      · have hdepth : ¬(offset = 0 ∧ fdt32ToCpu fdt fdt.dtStruct = FDT_BEGIN_NODE) := by
          rw [hzero] at hbegin
          exact fun h => hbegin h.2
        rw [if_neg (not_not.mpr hzero)] at hstep
        rw [Scanner.bounded_next hstep, hinside, if_neg hdepth, next_tokens offset hpos,
          or_iff_right fun h => h.1 hzero]
        simp only [TokensFrom, if_neg hbegin, exists_eq_left]
        exact and_congr_right fun _ => and_iff_right trivial
      · rw [if_pos hzero] at hstep
        rw [Scanner.bounded_done hstep, hinside]
        exact (and_iff_left (Or.inl ⟨hzero, hbegin⟩)).symm

/-- The search for a property, which does not check its offset. -/
theorem getProperty_readable (dtStrings offset : Nat) (name : List UInt8) :
    (getPropertyScanner fdt dtStrings offset name).Bounded fdt.dtStruct fdt.blockEnd .entry ↔
      GetReadable fdt dtStrings offset name := by
  have hpos : fdt.dtStruct ≤ fdt.dtStruct + offset := Nat.le_add_right _ _
  have hinside : (getPropertyScanner fdt dtStrings offset name).Inside fdt.dtStruct fdt.blockEnd
      .entry ↔ fdt.dtStruct + offset + 4 ≤ fdt.blockEnd := by
    rw [Scanner.Inside, getPropertyScanner]
    simp only [fdtGetReads, List.forall_mem_singleton]
    omega
  rw [GetReadable]
  by_cases hbegin : fdt32ToCpu fdt (fdt.dtStruct + offset) = FDT_BEGIN_NODE
  · have hstep : (getPropertyScanner fdt dtStrings offset name).step .entry =
        .inl (.name (fdt.dtStruct + offset + 4)) := if_pos hbegin
    have hnode := @bounded_node fdt _ _ (getPropertyScanner fdt dtStrings offset name) id
      (fun p => rfl) (fun p => rfl) (fun p ph => trivial) _ ?_
      (fun start hstart => get_tokens offset hstart) _ hpos hbegin
    · rw [Scanner.bounded_next hstep, hinside]
      refine and_congr_right fun _ => ?_
      exact (and_iff_right trivial).trans hnode
    · intro start h
      have hmem : (start, 4) ∈ fdtGetReads fdt dtStrings offset name (.token start) := by
        rw [fdtGetReads]
        split
        · split <;> exact List.mem_cons_self
        · exact List.mem_cons_self
      exact (h.inside _ hmem).1
  · have hstep : (getPropertyScanner fdt dtStrings offset name).step .entry =
        .inl (.token (fdt.dtStruct + offset)) := if_neg hbegin
    rw [Scanner.bounded_next hstep, hinside, get_tokens offset hpos]
    simp only [TokensFrom, if_neg hbegin, exists_eq_left]
    exact and_congr_right fun _ => and_iff_right trivial

/-- On any block, the calls end without reading beyond it, with the position advanced in every
turn of the loops over the tokens, exactly if the tokens up to the one at which a call stops lie
in the block and no property has a length that wraps around. -/
theorem fdtScan_iff (dtStrings : Nat) :
    (∀ offset depth, (nextNodeScanner fdt offset).Bounded fdt.dtStruct fdt.blockEnd (.entry, depth) ↔
        NextReadable fdt offset depth) ∧
      ∀ offset name, (getPropertyScanner fdt dtStrings offset name).Bounded fdt.dtStruct
        fdt.blockEnd .entry ↔ GetReadable fdt dtStrings offset name :=
  ⟨nextNode_readable fdt, getProperty_readable fdt dtStrings⟩

end

/-- A node with an empty name and a property of 0xfffffff1 bytes, and an end token. -/
def wrappedFdt : Fdt where
  mem := fun a => (wordBytes FDT_BEGIN_NODE ++ (wordBytes 0 ++ (wordBytes FDT_PROP ++
    (wordBytes 0xfffffff1 ++ (wordBytes 0 ++ wordBytes FDT_END))))).getD (a - 4096) 0
  dtStruct := 4096
  sizeDtStruct := 24

/-- The position is not advanced over the property. -/
theorem wrappedFdt_stuck (i : Nat) : tokenPos wrappedFdt 4104 i = 4104 := by
  induction i with
  | zero => rfl
  | succ i ih =>
      have hprop : fdt32ToCpu wrappedFdt 4104 = FDT_PROP := by decide +kernel
      have hlen : fdtConsumeProp wrappedFdt 4104 = 0 := by decide +kernel
      rw [tokenPos, ih, if_pos hprop, hlen]

/-- Neither the call at the root nor the search for a property of it ends. -/
theorem fdtScan_wrapped :
    ¬(nextNodeScanner wrappedFdt 0).Bounded wrappedFdt.dtStruct wrappedFdt.blockEnd (.entry, -1) ∧
      ¬(getPropertyScanner wrappedFdt 4120 0 "reg".toUTF8.toList).Bounded wrappedFdt.dtStruct
        wrappedFdt.blockEnd .entry := by
  have hprop (i : Nat) : tokenAt wrappedFdt 4104 i = FDT_PROP := by
    rw [tokenAt, wrappedFdt_stuck]
    decide +kernel
  have hstart {start : Nat} (h : TokensFrom wrappedFdt 4096 start) : start = 4104 := by
    have hbegin : fdt32ToCpu wrappedFdt 4096 = FDT_BEGIN_NODE := by decide +kernel
    rw [TokensFrom, if_pos hbegin] at h
    obtain ⟨n, hname, -, -, rfl, -⟩ := h
    cases n with
    | zero => decide +kernel
    | succ n => exact absurd (by decide +kernel) (hname 0 (Nat.succ_pos n))
  constructor
  · rw [nextNode_readable]
    rintro (h | ⟨-, h | ⟨start, h, k, hstop, -⟩⟩)
    · exact absurd h (by decide)
    · exact absurd rfl h.1
    · obtain rfl := hstart h
      rcases hstop with h | h | h
      · exact absurd ((hprop k).symm.trans h) (by decide)
      · exact absurd ((hprop k).symm.trans h) (by decide)
      · exact absurd ((hprop k).symm.trans h.1) (by decide)
  · rw [getProperty_readable]
    rintro ⟨-, start, h, k, hstop, -⟩
    obtain rfl := hstart h
    rcases hstop with h | h | h | h
    · exact absurd ((hprop k).symm.trans h) (by decide)
    · exact absurd ((hprop k).symm.trans h) (by decide)
    · exact absurd ((hprop k).symm.trans h) (by decide)
    · have hname := h.2
      rw [wrappedFdt_stuck] at hname
      exact absurd hname (by decide +kernel)

end Plo.Sbi
