import Mathlib.Tactic.Common
import Plo.Devices.NandCtrlRuns

/-!
Data that `data_write` took in full is there again for `data_read`, whatever happens to
other blocks in between and as long as no more bits flip than the code corrects.
-/
namespace Plo.Devices.NandCtrl
variable {nand : Info} (ecc : Ecc nand)

/-- The next `n` pages of the block hold the data from `poffs` on, or as much as fits. -/
def KeptPages (chip : Nat → Nat → UInt8) (block : Nat) : Nat → Nat → Nat → List UInt8 → Prop
  | 0, _, _, _ => True
  | n + 1, page, poffs, data =>
    data = [] ∨
      Holds ecc (chip (block * nand.pagesPerBlock + page))
          (some (pageBuffer nand poffs (data.take (min data.length (nand.writesz - poffs))))) ∧
        KeptPages chip block n (page + 1) 0 (data.drop (min data.length (nand.writesz - poffs)))

/-- The good ones of the next `m` blocks hold the data from `boffs` on. -/
def KeptBlocks (die : Die) : Nat → Nat → Nat → List UInt8 → Prop
  | 0, _, _, data => data = []
  | m + 1, block, boffs, data =>
    data = [] ∨
      if isbad die block then KeptBlocks die m (block + 1) boffs data
      else
        KeptPages ecc die.chip block (nand.pagesPerBlock - boffs / nand.writesz)
            (boffs / nand.writesz) (boffs % nand.writesz) data ∧
          KeptBlocks die m (block + 1) 0 (data.drop (nand.erasesz - boffs))

/-- The bytes of the good ones of `m` blocks. -/
def room (nand : Info) (die : Die) : Nat → Nat → Nat
  | _, 0 => 0
  | block, m + 1 => (if isbad die block then 0 else nand.erasesz) + room nand die (block + 1) m

section Arith
variable {ecc}

theorem Info.erasesz_pos (nand : Info) : 0 < nand.erasesz := by
  rw [nand.erasesz_eq]
  exact Nat.mul_pos nand.pagesPerBlock_pos nand.writesz_pos

theorem min_add_pages {len w poffs : Nat} (h : poffs < w) (n : Nat) :
    min (min len (w - poffs) + n * w) len = min ((n + 1) * w - poffs) len := by
  rw [Nat.succ_mul]
  omega

/-- What fits in the first page and what fits in the pages after it. -/
theorem take_pages {data : List UInt8} {w poffs : Nat} (h : poffs < w) (n : Nat) :
    data.take (min data.length (w - poffs)) ++
        (data.drop (min data.length (w - poffs))).take (n * w) =
      data.take ((n + 1) * w - poffs) := by
  rw [← List.take_add, List.take_eq_take_iff, min_add_pages h]

theorem drop_pages {data : List UInt8} {w poffs : Nat} (h : poffs < w) (n : Nat) :
    (data.drop (min data.length (w - poffs))).drop (n * w) = data.drop ((n + 1) * w - poffs) := by
  rw [List.drop_drop, List.drop_eq_drop_iff, min_add_pages h]

/-- A block from an offset on, in pages. -/
theorem Info.pages_left (nand : Info) {boffs : Nat} (h : boffs < nand.erasesz) :
    (nand.pagesPerBlock - boffs / nand.writesz) * nand.writesz - boffs % nand.writesz =
      nand.erasesz - boffs := by
  have hdiv := Nat.div_add_mod' boffs nand.writesz
  rw [Nat.sub_mul, ← nand.erasesz_eq]
  omega

theorem Info.page_lt (nand : Info) {boffs : Nat} (h : boffs < nand.erasesz) :
    boffs / nand.writesz < nand.pagesPerBlock := by
  rw [nand.erasesz_eq] at h
  exact Nat.div_lt_of_lt_mul (by rwa [Nat.mul_comm])

theorem length_pageBuffer {poffs : Nat} {data : List UInt8}
    (h : poffs + data.length ≤ nand.writesz) : (pageBuffer nand poffs data).length = nand.writesz := by
  rw [pageBuffer]
  split
  · next hfull => exact hfull.1
  · rw [List.length_append, List.length_append, List.length_replicate, List.length_replicate]
    omega

/-- The data is in the buffer from its offset on. -/
theorem take_drop_pageBuffer (nand : Info) (poffs : Nat) (data : List UInt8) :
    ((pageBuffer nand poffs data).drop poffs).take data.length = data := by
  rw [pageBuffer]
  split
  · next hfull => rw [hfull.2, List.drop_zero, List.take_length]
  · rw [List.append_assoc, List.drop_left' (List.length_replicate ..), List.take_left]

end Arith

section Mono
variable {ecc} {die die' : Die}

theorem KeptPages.mono {chip chip' : Nat → Nat → UInt8} {block : Nat} (n : Nat) {page : Nat}
    (hpages : ∀ p content, page ≤ p → p < page + n →
      Holds ecc (chip (block * nand.pagesPerBlock + p)) content →
      Holds ecc (chip' (block * nand.pagesPerBlock + p)) content)
    {poffs : Nat} {data : List UInt8} (h : KeptPages ecc chip block n page poffs data) :
    KeptPages ecc chip' block n page poffs data := by
  induction n generalizing page poffs data with
  | zero => trivial
  | succ n ih =>
      rcases h with hnil | ⟨hpage, hrest⟩
      · exact Or.inl hnil
      · refine Or.inr ⟨hpages _ _ le_rfl (by omega) hpage, ih (fun p content hlo hhi => ?_) hrest⟩
        exact hpages p content (by omega) (by omega)

theorem KeptBlocks.mono (m : Nat) {block : Nat}
    (hbad : ∀ b, block ≤ b → b < block + m → isbad die' b = isbad die b)
    (hpages : ∀ b p content, block ≤ b → b < block + m → p < nand.pagesPerBlock →
      Holds ecc (die.chip (b * nand.pagesPerBlock + p)) content →
      Holds ecc (die'.chip (b * nand.pagesPerBlock + p)) content)
    {boffs : Nat} {data : List UInt8} (h : KeptBlocks ecc die m block boffs data) :
    KeptBlocks ecc die' m block boffs data := by
  induction m generalizing block boffs data with
  | zero => exact h
  | succ m ih =>
      have hbad' : ∀ b, block + 1 ≤ b → b < block + 1 + m → isbad die' b = isbad die b :=
        fun b hlo hhi => hbad b (by omega) (by omega)
      have hpages' : ∀ b p content, block + 1 ≤ b → b < block + 1 + m → p < nand.pagesPerBlock →
          Holds ecc (die.chip (b * nand.pagesPerBlock + p)) content →
          Holds ecc (die'.chip (b * nand.pagesPerBlock + p)) content :=
        fun b p content hlo hhi => hpages b p content (by omega) (by omega)
      refine h.imp id fun hblock => ?_
      rw [hbad block le_rfl (by omega)]
      split
      · next hb =>
        rw [if_pos hb] at hblock
        exact ih hbad' hpages' hblock
      · next hb =>
        rw [if_neg hb] at hblock
        refine ⟨hblock.1.mono _ fun p content _ hhi => ?_, ih hbad' hpages' hblock.2⟩
        exact hpages block p content le_rfl (by omega) (by omega)

theorem room_congr (m : Nat) {block : Nat}
    (hbad : ∀ b, block ≤ b → b < block + m → isbad die' b = isbad die b) :
    room nand die' block m = room nand die block m := by
  induction m generalizing block with
  | zero => rfl
  | succ m ih =>
      rw [room, room, hbad block le_rfl (by omega),
        ih fun b hlo hhi => hbad b (by omega) (by omega)]

theorem room_add (m n block : Nat) :
    room nand die block (m + n) = room nand die block m + room nand die (block + m) n := by
  induction m generalizing block with
  | zero => rw [Nat.zero_add, room, Nat.zero_add, Nat.add_zero]
  | succ m ih =>
      have hnext : block + 1 + m = block + (m + 1) := by omega
      rw [Nat.succ_add, room, room, ih, hnext, Nat.add_assoc]

theorem room_le (m block : Nat) : room nand die block m ≤ m * nand.erasesz := by
  induction m generalizing block with
  | zero => exact Nat.zero_le _
  | succ m ih =>
      have hrest := ih (block + 1)
      rw [room, Nat.succ_mul]
      split <;> omega

end Mono

section Read
variable {ecc} {die : Die} {f : Faults}

/-- A call that only reads leaves all pages and the table. -/
theorem same_chip {die' : Die} (h : Same nand (fun _ => True) die die') : die'.chip = die.chip :=
  funext fun _ => h.chip trivial

theorem KeptPages.read (hclean : ∀ t, f t = .done) {block : Nat} (n : Nat) {page poffs : Nat}
    (hpoffs : poffs < nand.writesz) {data : List UInt8}
    (h : KeptPages ecc die.chip block n page poffs data) :
    (readPages ecc f block n page poffs data.length die).2 =
      (data.take (n * nand.writesz - poffs), none) := by
  induction n generalizing page poffs data die with
  | zero => rw [readPages, Nat.zero_mul, Nat.zero_sub, List.take_zero]
  | succ n ih =>
      rw [readPages]
      rcases h with rfl | ⟨hpage, hrest⟩
      · rw [List.length_nil, if_pos rfl, List.take_nil]
      · split
        · next hlen => rw [List.eq_nil_of_length_eq_zero hlen, List.take_nil]
        · simp only
          rw [hpage.pageRead_ok hclean]
          have hlen : data.length - min data.length (nand.writesz - poffs) =
              (data.drop (min data.length (nand.writesz - poffs))).length := by
            rw [List.length_drop]
          have hfirst := take_drop_pageBuffer nand poffs
            (data.take (min data.length (nand.writesz - poffs)))
          rw [List.length_take, Nat.min_eq_left (Nat.min_le_left _ _)] at hfirst
          simp only [hlen]
          rw [ih nand.writesz_pos (by rwa [same_chip (same_pageRead _)]), contentBytes,
            Option.getD_some, hfirst, Nat.sub_zero, take_pages hpoffs]

theorem KeptBlocks.read (hclean : ∀ t, f t = .done) (m : Nat) {n : Nat} (hn : m ≤ n)
    {block boffs : Nat} (hboffs : boffs < nand.erasesz) {data : List UInt8}
    (h : KeptBlocks ecc die m block boffs data) :
    (readBlocks ecc f n block boffs data.length die).2 = (data, none) := by
  induction m generalizing n block boffs data die with
  | zero =>
      rw [h]
      cases n with
      | zero => rw [readBlocks]
      | succ n => rw [readBlocks, List.length_nil, if_pos rfl]
  | succ m ih =>
      obtain ⟨k, rfl⟩ : ∃ k, n = k + 1 := ⟨n - 1, by omega⟩
      rw [readBlocks]
      rcases h with rfl | hblock
      · rw [List.length_nil, if_pos rfl]
      · split
        · next hlen => rw [List.eq_nil_of_length_eq_zero hlen]
        · split
          · next hb =>
            rw [if_pos hb] at hblock
            exact ih (by omega) hboffs hblock
          · next hb =>
            rw [if_neg hb] at hblock
            obtain ⟨hpages, hrest⟩ := hblock
            have hread := hpages.read hclean _ (Nat.mod_lt _ nand.writesz_pos)
            rw [nand.pages_left hboffs] at hread
            have hsame : Same nand (fun _ => True) die (readPages ecc f block
                (nand.pagesPerBlock - boffs / nand.writesz) (boffs / nand.writesz)
                (boffs % nand.writesz) data.length die).1 := same_readPages ..
            have hlen : data.length - (data.take (nand.erasesz - boffs)).length =
                (data.drop (nand.erasesz - boffs)).length := by
              rw [List.length_take, List.length_drop]
              omega
            simp only [hread, Option.isSome_none, Bool.false_eq_true, if_false, hlen]
            rw [ih (by omega) nand.erasesz_pos (hrest.mono _ (fun b _ _ => hsame.bbt trivial)
              fun b p content _ _ _ hholds => by rwa [same_chip hsame]), List.take_append_drop]

end Read

section Write
variable {ecc} {f : Faults} {die die' : Die}

/-- What `nandfctrl2_pageWrite` leaves in the page when it succeeds. -/
theorem pageWrite_chip (ecc : Ecc nand) (row : Nat) (data : List UInt8) (hdone : f die.time = .done) :
    (pageWrite ecc f die row data).1.chip = Function.update die.chip row fun col =>
      die.chip row col &&& register ecc (pageWriteLoads nand data) col := by
  rw [pageWrite, programPage, hdone]
  rfl

theorem pageWrite_marker {row : Nat} {data : List UInt8} (hlen : data.length = nand.writesz)
    (hdone : f die.time = .done) (b : Nat) :
    marker (pageWrite ecc f die row data).1 nand b = marker die nand b := by
  rw [marker, marker, pageWrite_chip ecc row data hdone]
  by_cases heq : b * nand.pagesPerBlock = row
  · rw [heq, Function.update_self, (loaded_pageWrite hlen).marker]
    exact UInt8.and_neg_one
  · rw [Function.update_of_ne heq]

/-- What the pages are after the inner loop of `data_write` went through them. -/
structure Wrote (ecc : Ecc nand) (die die' : Die) (block n page poffs : Nat)
    (data data' : List UInt8) (ret ret' : Nat) : Prop where
  kept : KeptPages ecc die'.chip block n page poffs data
  rest : data' = data.drop (n * nand.writesz - poffs)
  count : ret' + data'.length = ret + data.length
  bbt : die'.bbt = die.bbt
  before : ∀ row, row < block * nand.pagesPerBlock + page → die'.chip row = die.chip row
  marker : ∀ b, marker die' nand b = marker die nand b

theorem writePages_next {block : Nat} (n : Nat) {page poffs : Nat} (hpoffs : poffs < nand.writesz)
    (hblank : ∀ p, page ≤ p → p < page + n →
      Holds ecc (die.chip (block * nand.pagesPerBlock + p)) none)
    {data data' : List UInt8} {ret ret' : Nat}
    (h : writePages ecc f block n page poffs data ret die = .next die' data' ret') :
    Wrote ecc die die' block n page poffs data data' ret ret' := by
  induction n generalizing page poffs data ret die with
  | zero =>
      cases h
      exact ⟨trivial, by rw [Nat.zero_mul, Nat.zero_sub, List.drop_zero], rfl, rfl, fun _ _ => rfl,
        fun _ => rfl⟩
  | succ n ih =>
      rw [writePages] at h
      split at h
      · next hnil =>
        cases h
        exact ⟨Or.inl hnil, by rw [hnil, List.drop_nil], rfl, rfl, fun _ _ => rfl, fun _ => rfl⟩
      · simp only at h
        split at h
        · cases h
        · split at h
          · split at h <;> cases h
          · next hok =>
            have hdone : f die.time = .done := done_of_statusErr hok
            have hbuffer : (pageBuffer nand poffs
                (data.take (min data.length (nand.writesz - poffs)))).length = nand.writesz :=
              length_pageBuffer (by rw [List.length_take]; omega)
            have hchip := pageWrite_chip ecc (block * nand.pagesPerBlock + page) (pageBuffer nand poffs
              (data.take (min data.length (nand.writesz - poffs)))) hdone
            have hrest := ih nand.writesz_pos (fun p hlo hhi => by
              rw [hchip, Function.update_of_ne (by omega)]
              exact hblank p (by omega) (by omega)) h
            refine ⟨Or.inr ⟨?_, hrest.kept⟩, ?_, ?_, hrest.bbt, fun row hrow => ?_, fun b => ?_⟩
            · rw [hrest.before _ (by omega), hchip, Function.update_self]
              exact (hblank page le_rfl (by omega)).program hbuffer (loaded_pageWrite hbuffer).chunks
            · rw [hrest.rest, Nat.sub_zero, drop_pages hpoffs]
            · rw [hrest.count, List.length_drop]
              omega
            · rw [hrest.before row (by omega), hchip, Function.update_of_ne (by omega)]
            · rw [hrest.marker, pageWrite_marker hbuffer hdone]

/-- When the call ends within a block, it did not take all data. -/
theorem writePages_ended {block : Nat} (n : Nat) {page poffs : Nat} {data : List UInt8} {ret : Nat}
    {result : Int} (h : writePages ecc f block n page poffs data ret die = .ended die' result) :
    result < ((ret + data.length : Nat) : Int) := by
  induction n generalizing page poffs data ret die with
  | zero => cases h
  | succ n ih =>
      rw [writePages] at h
      split at h
      · cases h
      · next hdata =>
        have hpos : 0 < data.length := List.length_pos_iff.mpr hdata
        simp only at h
        split at h
        · next htime =>
          cases h
          rw [htime, ETIME]
          omega
        · split at h
          · next hneg =>
            split at h
            · cases h
              rw [ EIO]
              omega
            · cases h
              split <;> omega
          · have hrest := ih h
            rw [List.length_drop] at hrest
            omega

/-- When `data_write` took all data, the blocks hold it, and no block was marked. -/
theorem writeBlocks_all (m : Nat) {n : Nat} (hn : m ≤ n) {block boffs : Nat}
    (hboffs : boffs < nand.erasesz)
    (hblank : ∀ b, block ≤ b → b < block + m → isbad die b = false → ∀ p, p < nand.pagesPerBlock →
      Holds ecc (die.chip (b * nand.pagesPerBlock + p)) none)
    {data : List UInt8} (hroom : boffs + data.length ≤ room nand die block m) {ret : Nat}
    (h : writeBlocks ecc f n block boffs data ret die = (die', ((ret + data.length : Nat) : Int))) :
    KeptBlocks ecc die' m block boffs data ∧ die'.bbt = die.bbt ∧
      ∀ b, marker die' nand b = marker die nand b := by
  induction m generalizing n block boffs data ret die with
  | zero =>
      have hnil : data = [] := List.eq_nil_of_length_eq_zero (by rw [room] at hroom; omega)
      have hdie : die = die' := by
        cases n with
        | zero => exact congrArg Prod.fst h
        | succ n =>
            rw [writeBlocks, if_pos hnil] at h
            exact congrArg Prod.fst h
      rw [← hdie]
      exact ⟨hnil, rfl, fun _ => rfl⟩
  | succ m ih =>
      obtain ⟨k, rfl⟩ : ∃ k, n = k + 1 := ⟨n - 1, by omega⟩
      have hblank' : ∀ b, block + 1 ≤ b → b < block + 1 + m → isbad die b = false →
          ∀ p, p < nand.pagesPerBlock → Holds ecc (die.chip (b * nand.pagesPerBlock + p)) none :=
        fun b hlo hhi => hblank b (by omega) (by omega)
      rw [writeBlocks] at h
      rw [room] at hroom
      split at h
      · next hnil =>
        have hdie : die = die' := congrArg Prod.fst h
        rw [← hdie]
        exact ⟨Or.inl hnil, rfl, fun _ => rfl⟩
      · split at h
        · next hb =>
          rw [if_pos hb, Nat.zero_add] at hroom
          obtain ⟨hkept, hbbt, hmarker⟩ := ih (by omega) hboffs hblank' hroom h
          refine ⟨Or.inr ?_, hbbt, hmarker⟩
          rw [if_pos (by rwa [isbad, hbbt])]
          exact hkept
        · next hb =>
          rw [if_neg hb] at hroom
          simp only at h
          split at h
          · next result hended =>
            have hlt := writePages_ended _ hended
            have hresult := congrArg Prod.snd h
            simp only at hresult
            omega
          · next mid data' ret' hnext =>
            have hpage := nand.page_lt hboffs
            have hwrote := writePages_next _ (Nat.mod_lt _ nand.writesz_pos) (fun p _ hhi =>
              hblank block le_rfl (by omega) (by simpa using hb) p (by omega)) hnext
            have hrest := hwrote.rest
            rw [nand.pages_left hboffs] at hrest
            have hothers : Same nand (· ≠ block) die mid := by
              have hsame : Same nand (· ≠ block) die (writePages ecc f block
                  (nand.pagesPerBlock - boffs / nand.writesz) (boffs / nand.writesz)
                  (boffs % nand.writesz) data ret die).die :=
                same_writePages (fun hne => hne rfl) _ (by omega) ..
              rwa [hnext] at hsame
            rw [← hwrote.count] at h
            obtain ⟨hkept, hbbt, hmarker⟩ := ih (by omega) nand.erasesz_pos
              (fun b hlo hhi hgood p hp => by
                rw [hothers.chip (by rw [nand.block_page hp]; omega)]
                exact hblank' b hlo hhi (by rwa [isbad, hwrote.bbt] at hgood) p hp)
              (by
                have hsame : room nand mid (block + 1) m = room nand die (block + 1) m :=
                  room_congr m fun b _ _ => by rw [isbad, hwrote.bbt, isbad]
                rw [hsame, hrest, List.length_drop]
                omega) h
            refine ⟨Or.inr ?_, hbbt.trans hwrote.bbt, fun b => (hmarker b).trans (hwrote.marker b)⟩
            rw [if_neg (by rwa [isbad, hbbt, hwrote.bbt]), ← hrest]
            have hlater : Same nand (· ≤ block) mid die' := by
              have hsame : Same nand (· ≤ block) mid
                  (writeBlocks ecc f k (block + 1) 0 data' ret' mid).1 :=
                same_writeBlocks k (fun b hlo hle => absurd hle (by omega)) ..
              rwa [h] at hsame
            refine ⟨hwrote.kept.mono _ fun p content _ hhi hholds => ?_, hkept⟩
            rwa [hlater.chip (by rw [nand.block_page (by omega)])]

end Write

section Erase
variable {ecc} {f : Faults} {die die' : Die}

theorem slice_const (x : UInt8) (src n : Nat) : slice (fun _ => x) src n = List.replicate n x := by
  rw [slice, List.map_const', List.length_range]

/-- A page that was just erased holds nothing. -/
theorem holds_erased : Holds ecc (fun _ => NAND_ERASED_STATE) none where
  length := by
    intro data hdata
    cases hdata
  near := by
    intro i _
    rw [stored, dataChunk, eccChunk, slice_const, slice_const, programmed, ← List.replicate_add,
      distance_self]
    exact Nat.zero_le _

theorem le_room (m : Nat) {block b : Nat} (hlo : block ≤ b) (hhi : b < block + m)
    (hgood : isbad die b = false) : nand.erasesz ≤ room nand die block m := by
  induction m generalizing block with
  | zero => omega
  | succ m ih =>
      rw [room]
      by_cases heq : block = b
      · rw [heq, hgood, if_neg (by decide)]
        exact Nat.le_add_right _ _
      · exact (ih (by omega) (by omega)).trans (Nat.le_add_left _ _)

/-- The blocks that `data_erase` counts are erased, and those that it marks are in the table. -/
structure Erased (ecc : Ecc nand) (die die' : Die) (block ret r : Nat) : Prop where
  blank : ∀ b, block ≤ b → isbad die' b = false → ret + room nand die' block (b + 1 - block) ≤ r →
    ∀ p, p < nand.pagesPerBlock → Holds ecc (die'.chip (b * nand.pagesPerBlock + p)) none
  table : ∀ b, (isbad die b = true ↔ marker die nand b = 0) →
    (isbad die' b = true ↔ marker die' nand b = 0)

/-- No good block is counted yet. -/
theorem Erased.self (block r : Nat) : Erased ecc die die block r r where
  blank := by
    intro b hlo hgood hroom
    have hpos := nand.erasesz_pos
    have hle : nand.erasesz ≤ room nand die block (b + 1 - block) :=
      le_room _ hlo (by omega) hgood
    omega
  table _ htable := htable

theorem Erased.next {block ret ret' r : Nat} {mid : Die} (h : Erased ecc mid die' (block + 1) ret' r)
    (hret : ret' = ret + if isbad die' block then 0 else nand.erasesz)
    (hblank : isbad die' block = false → ∀ p, p < nand.pagesPerBlock →
      Holds ecc (die'.chip (block * nand.pagesPerBlock + p)) none)
    (htable : ∀ b, (isbad die b = true ↔ marker die nand b = 0) →
      (isbad mid b = true ↔ marker mid nand b = 0)) : Erased ecc die die' block ret r where
  blank := by
    intro b hlo hgood hroom p hp
    by_cases heq : b = block
    · rw [heq] at hgood ⊢
      exact hblank hgood p hp
    · refine h.blank b (by omega) hgood ?_ p hp
      have hsucc : b + 1 - block = (b + 1 - (block + 1)) + 1 := by omega
      rw [hsucc, room] at hroom
      omega
  table b hb := h.table b (htable b hb)

theorem eraseBlock_page (block : Nat) {p : Nat} (hdone : f die.time = .done) (hp : p < nand.pagesPerBlock) :
    (eraseBlock f die nand block).1.chip (block * nand.pagesPerBlock + p) =
      fun _ => NAND_ERASED_STATE := by
  rw [eraseBlock, hdone]
  exact if_pos (nand.block_page hp)

theorem table_of_same {block b : Nat} (h : Same nand (· ≠ block) die die') (hne : b ≠ block)
    (htable : isbad die b = true ↔ marker die nand b = 0) :
    isbad die' b = true ↔ marker die' nand b = 0 := by
  rw [h.bbt hne, h.marker hne]
  exact htable

theorem eraseBlocks_erased (n : Nat) {block len ret r : Nat}
    (h : eraseBlocks ecc f n block len ret die = (die', (r : Int))) :
    Erased ecc die die' block ret r := by
  induction n generalizing block ret die with
  | zero =>
      cases (congrArg Prod.fst h : die = die')
      cases Int.ofNat.inj (congrArg Prod.snd h : (ret : Int) = r)
      exact Erased.self _ _
  | succ n ih =>
      have hkeep : ∀ {mid : Die} {ret' : Nat},
          eraseBlocks ecc f n (block + 1) len ret' mid = (die', (r : Int)) →
          Same nand (· ≤ block) mid die' := by
        intro mid ret' hrest
        have hsame : Same nand (· ≤ block) mid
            (eraseBlocks ecc f n (block + 1) len ret' mid).1 :=
          same_eraseBlocks n (fun b hlo hle => absurd hle (by omega)) ..
        rwa [hrest] at hsame
      rw [eraseBlocks] at h
      split at h
      · cases (congrArg Prod.fst h : die = die')
        cases Int.ofNat.inj (congrArg Prod.snd h : (ret : Int) = r)
        exact Erased.self _ _
      · split at h
        · next hb =>
          have hbad : isbad die' block = true := by rw [(hkeep h).bbt le_rfl, hb]
          refine (ih h).next ?_ (fun hgood => ?_) fun _ htable => htable
          · rw [if_pos hbad, Nat.add_zero]
          · rw [hbad] at hgood
            cases hgood
        · next hb =>
          have herase : Same nand (· ≠ block) die (eraseBlock f die nand block).1 :=
            same_eraseBlock fun hne => hne rfl
          simp only at h
          split at h
          · next htime =>
            have hresult := congrArg Prod.snd h
            simp only [htime, ETIME] at hresult
            omega
          · split at h
            · have hmark : Same nand (· ≠ block) die
                  (markbad ecc f (eraseBlock f die nand block).1 block).1 :=
                herase.trans (same_markbad fun hne => hne rfl)
              split at h
              · have hresult := congrArg Prod.snd h
                simp only [ EIO] at hresult
                omega
              · next hok =>
                have hmarked := marked_markbad ecc hok
                have hbad : isbad die' block = true := by rw [(hkeep h).bbt le_rfl, hmarked.1]
                refine (ih h).next ?_ (fun hgood => ?_) fun b htable => ?_
                · rw [if_pos hbad, Nat.add_zero]
                · rw [hbad] at hgood
                  cases hgood
                · by_cases heq : b = block
                  · rw [heq]
                    exact iff_of_true hmarked.1 hmarked.2
                  · exact table_of_same hmark heq htable
            · next hok =>
              have hdone : f die.time = .done := done_of_statusErr hok
              have hgood : isbad die' block = false := by
                rw [(hkeep h).bbt le_rfl]
                exact Bool.eq_false_iff.mpr hb
              refine (ih h).next ?_ (fun _ p hp => ?_) fun b htable => ?_
              · rw [hgood]
                rfl
              · rw [(hkeep h).chip (by rw [nand.block_page hp]), eraseBlock_page block hdone hp]
                exact holds_erased
              · by_cases heq : b = block
                · have hpage := eraseBlock_page block hdone nand.pagesPerBlock_pos
                  rw [Nat.add_zero] at hpage
                  rw [heq, marker, hpage]
                  exact iff_of_false hb (show ¬NAND_ERASED_STATE = 0 by decide)
                · exact table_of_same herase heq htable

end Erase

/-- What may happen while the first `last` blocks are to stay as they are. -/
def Spares (nand : Info) (last : Nat) : Event → Prop
  | .call c _ => last ≤ c.first nand
  | .reboot f => ∀ t, f t = .done
  | .wear _ => True

/-- The blocks hold the data, and the table has those that are marked. -/
structure Kept (ecc : Ecc nand) (block m boffs : Nat) (data : List UInt8) (die : Die) : Prop where
  blocks : KeptBlocks ecc die m block boffs data
  table : ∀ b, block ≤ b → b < block + m → (isbad die b = true ↔ marker die nand b = 0)

section Kept
variable {ecc} {die die' : Die} {block m boffs : Nat} {data : List UInt8}

theorem Kept.step (h : Kept ecc block m boffs data die) (hlast : block + m ≤ nand.nblocks)
    {e : Event} (hspares : Spares nand (block + m) e) (hstep : Step ecc e die die') :
    Kept ecc block m boffs data die' := by
  cases hstep with
  | call hrun =>
      have hsame : Same nand (· < block + m) die die' :=
        same_call (fun b hlo hlt => absurd hlt (by have := le_trans hspares hlo; omega)) hrun
      refine ⟨h.blocks.mono _ (fun b _ hhi => hsame.bbt hhi) fun b p content _ hhi hp hholds => ?_,
        fun b hlo hhi => ?_⟩
      · rwa [hsame.chip (by rwa [nand.block_page hp])]
      · rw [hsame.bbt hhi, hsame.marker hhi]
        exact h.table b hlo hhi
  | @reboot f =>
      have hchip : (reboot f die nand).chip = die.chip := (scanBadBlocks_frame ..).1
      have hmarker : ∀ b, marker (reboot f die nand) nand b = marker die nand b := fun b => by
        rw [marker, hchip, marker]
      have hbad : ∀ b, block ≤ b → b < block + m →
          (isbad (reboot f die nand) b = true ↔ marker die nand b = 0) := by
        intro b _ hhi
        constructor
        · intro hb
          rcases isbad_scanBadBlocks_clean hspares _ _ _ hb with hempty | hmark
          · simp [isbad] at hempty
          · exact hmark
        · exact fun hmark => (retired_reboot (by omega) hmark).isbad
      refine ⟨h.blocks.mono _ (fun b hlo hhi => ?_) fun b p content _ _ _ hholds => by rwa [hchip],
        fun b hlo hhi => ?_⟩
      · rw [Bool.eq_iff_iff, hbad b hlo hhi, h.table b hlo hhi]
      · rw [hbad b hlo hhi, hmarker]
  | @wear chip _ hwears =>
      have hblocks : KeptBlocks ecc { die with chip := chip } m block boffs data := by
        refine h.blocks.mono m ?_ ?_
        · exact fun _ _ _ => rfl
        · exact fun _ _ _ _ _ _ hholds => hwears.pages hholds
      exact ⟨hblocks, fun b hlo hhi => (h.table b hlo hhi).trans (hwears.markers b).symm⟩

theorem Kept.run (h : Kept ecc block m boffs data die) (hlast : block + m ≤ nand.nblocks)
    {evs : List Event} (hspares : ∀ e ∈ evs, Spares nand (block + m) e)
    (hrun : Run ecc evs die die') : Kept ecc block m boffs data die' := by
  induction hrun with
  | nil => exact h
  | cons hstep _ ih =>
      obtain ⟨hfirst, hrest⟩ := List.forall_mem_cons.mp hspares
      exact ih (h.step hlast hfirst hstep) hrest

/-- What fits in front of block `last` fits in the flash. -/
theorem offs_add_le {offs len last : Nat} (hlast : last ≤ nand.nblocks)
    (hlen : offs % nand.erasesz + len ≤
      room nand die (offs / nand.erasesz) (last - offs / nand.erasesz))
    (hoffs : offs < nand.size) : offs + len ≤ nand.size := by
  have hsize : nand.nblocks * nand.erasesz = nand.size := Nat.div_mul_cancel nand.erasesz_dvd
  have hroom := hlen.trans (room_le _ _)
  have hmul := Nat.mul_le_mul_right nand.erasesz hlast
  have hdiv := Nat.div_add_mod' offs nand.erasesz
  rw [Nat.sub_mul] at hroom
  omega

theorem kept_dataWrite {f : Faults} {offs last : Nat} (hlast : last ≤ nand.nblocks)
    (hblank : ∀ b, offs / nand.erasesz ≤ b → b < last → isbad die b = false →
      ∀ p, p < nand.pagesPerBlock → Holds ecc (die.chip (b * nand.pagesPerBlock + p)) none)
    (htable : ∀ b, offs / nand.erasesz ≤ b → b < last →
      (isbad die b = true ↔ marker die nand b = 0))
    (hroom : offs % nand.erasesz + data.length ≤
      room nand die (offs / nand.erasesz) (last - offs / nand.erasesz))
    (hoffs : offs < nand.size) (hwrite : dataWrite ecc f offs data die = (die', (data.length : Int))) :
    Kept ecc (offs / nand.erasesz) (last - offs / nand.erasesz) (offs % nand.erasesz) data die' := by
  have hfits := offs_add_le hlast hroom hoffs
  rw [dataWrite, if_neg (by omega), List.take_of_length_le (by omega)] at hwrite
  obtain ⟨hkept, hbbt, hmarker⟩ := writeBlocks_all (last - offs / nand.erasesz)
    (Nat.sub_le_sub_right hlast _) (Nat.mod_lt _ nand.erasesz_pos)
    (fun b hlo hhi => hblank b hlo (by omega)) hroom
    (show _ = (die', ((0 + data.length : Nat) : Int)) by rwa [Nat.zero_add])
  refine ⟨hkept, fun b hlo hhi => ?_⟩
  rw [hmarker, isbad, hbbt]
  exact htable b hlo (by omega)

/-- Data that was written in full to blocks that hold nothing is read back, after any run of
calls that start behind these blocks, of power cycles, and of bits that flip no further than
the code corrects. -/
theorem blank_written_read {f g : Faults} {die'' : Die} {offs last : Nat} {data : List UInt8}
    (hfirst : offs / nand.erasesz ≤ last) (hlast : last ≤ nand.nblocks)
    (hblank : ∀ b, offs / nand.erasesz ≤ b → b < last → isbad die b = false →
      ∀ p, p < nand.pagesPerBlock → Holds ecc (die.chip (b * nand.pagesPerBlock + p)) none)
    (htable : ∀ b, offs / nand.erasesz ≤ b → b < last →
      (isbad die b = true ↔ marker die nand b = 0))
    (hroom : offs % nand.erasesz + data.length ≤
      room nand die (offs / nand.erasesz) (last - offs / nand.erasesz))
    (hwrite : dataWrite ecc f offs data die = (die', (data.length : Int))) {evs : List Event}
    (hspares : ∀ e ∈ evs, Spares nand last e) (hrun : Run ecc evs die' die'')
    (hclean : ∀ t, g t = .done) :
    (dataRead ecc g offs data.length die'').2 = (data, (data.length : Int)) := by
  by_cases hoffs : offs < nand.size
  · have hfits := offs_add_le hlast hroom hoffs
    have hkept := kept_dataWrite hlast hblank htable hroom hoffs hwrite
    have hend : offs / nand.erasesz + (last - offs / nand.erasesz) = last :=
      Nat.add_sub_cancel' hfirst
    have hread : (readBlocks ecc g (nand.nblocks - offs / nand.erasesz) (offs / nand.erasesz)
        (offs % nand.erasesz) data.length die'').2 = (data, none) :=
      KeptBlocks.read hclean _ (Nat.sub_le_sub_right hlast _) (Nat.mod_lt _ nand.erasesz_pos)
        (Kept.run hkept (by rwa [hend]) (by rwa [hend]) hrun).blocks
    rw [dataRead, if_neg (by omega), Nat.min_eq_left (by omega)]
    simp only [hread]
  · rw [dataWrite, if_pos (by omega)] at hwrite
    have hresult := congrArg Prod.snd hwrite
    simp only [EINVAL] at hresult
    omega

/-- The first block after an erase and a write of one byte. -/
def writtenDie : Die :=
  (dataWrite tripleEcc (fun _ => .done) 0 [0x5a]
    (dataErase tripleEcc (fun _ => .done) 0 2 (tinyDie 0)).1).1

end Kept

end Plo.Devices.NandCtrl
