import Mathlib.Data.List.Nodup
import Plo.Base.Scatter
import Plo.Devices.NandData

/-!
What the flash and the block cache of the NAND driver hold together, and what one
call reads of it and does to it. The blocks that a call uses are the good ones from
the block of its offset on.
-/
namespace Plo.Devices.Nand

section Content
variable (nand : NandInfo)

/-- The flash with the cached block put in. -/
def NandDev.content (dev : NandDev) : Nat → UInt8 :=
  if dev.wnand then patch dev.chip (dev.wblock * nand.erasesz) nand.erasesz dev.block else dev.chip

/-- The cached block is good, and the cached page is as on the flash. -/
structure Coherent (dev : NandDev) : Prop where
  wblock : dev.wnand = true → dev.wblock < nand.nblocks ∧ nand.bad dev.wblock = false
  page : dev.rnand = true → ∀ k, k < nand.writesz → dev.page k = dev.chip (dev.rpage * nand.writesz + k)

/-- The good blocks from a block on. -/
def goods (block : Nat) : List Nat :=
  (List.range' block (nand.nblocks - block)).filter fun b => !nand.bad b

/-- Where byte number `l` of the good blocks from a block on is. -/
def place (block l : Nat) : Nat :=
  (goods nand block).getD (l / nand.erasesz) 0 * nand.erasesz + l % nand.erasesz

/-- The number of bytes in the good blocks from a block on. -/
def capacity (block : Nat) : Nat := (goods nand block).length * nand.erasesz

end Content

section Goods
variable {nand : NandInfo}

theorem NandInfo.size_eq (nand : NandInfo) : nand.nblocks * nand.erasesz = nand.size :=
  Nat.div_mul_cancel nand.erasesz_dvd

theorem NandInfo.erasesz_eq (nand : NandInfo) : nand.npages * nand.writesz = nand.erasesz :=
  Nat.div_mul_cancel nand.writesz_dvd

/-- Where a page of a block starts. -/
theorem NandInfo.page_addr (nand : NandInfo) (block i : Nat) :
    (block * nand.npages + i) * nand.writesz = block * nand.erasesz + i * nand.writesz := by
  rw [Nat.add_mul, Nat.mul_assoc, nand.erasesz_eq]

theorem goods_of_ge {block : Nat} (h : nand.nblocks ≤ block) : goods nand block = [] := by
  rw [goods, Nat.sub_eq_zero_of_le h]
  rfl

theorem goods_succ {block : Nat} (h : block < nand.nblocks) :
    goods nand block =
      if nand.bad block then goods nand (block + 1) else block :: goods nand (block + 1) := by
  have hlen : nand.nblocks - block = nand.nblocks - (block + 1) + 1 := by omega
  rw [goods, hlen, List.range'_succ, List.filter_cons, goods]
  cases nand.bad block with
  | true => rfl
  | false => rfl

theorem goods_nodup (block : Nat) : (goods nand block).Nodup := List.Nodup.filter _ (List.nodup_range' 1)

theorem capacity_le (nand : NandInfo) (block : Nat) : capacity nand block ≤ nand.size - block * nand.erasesz := by
  have hlen : (goods nand block).length ≤ nand.nblocks - block := by
    refine (List.length_filter_le _ _).trans ?_
    rw [List.length_range']
  have hmul := Nat.mul_le_mul_right nand.erasesz hlen
  rw [Nat.sub_mul, nand.size_eq] at hmul
  exact hmul

/-- Bytes with different numbers are in different places. -/
theorem place_inj {block l l' : Nat} (hl : l < capacity nand block) (hl' : l' < capacity nand block)
    (h : place nand block l = place nand block l') : l = l' := by
  have hpos := nand.erasesz_pos
  have hlt := Nat.div_lt_of_lt_mul (by rw [Nat.mul_comm]; exact hl : l < nand.erasesz * _)
  have hlt' := Nat.div_lt_of_lt_mul (by rw [Nat.mul_comm]; exact hl' : l' < nand.erasesz * _)
  have hmod := congrArg (· % nand.erasesz) h
  have hdiv := congrArg (· / nand.erasesz) h
  simp only [place, Nat.mul_add_mod_self_right, Nat.mod_mod] at hmod
  simp only [place] at hdiv
  rw [Nat.mul_comm, Nat.mul_add_div hpos, Nat.mul_comm, Nat.mul_add_div hpos,
    Nat.div_eq_of_lt (Nat.mod_lt l hpos), Nat.div_eq_of_lt (Nat.mod_lt l' hpos),
    List.getD_eq_getElem _ _ hlt, List.getD_eq_getElem _ _ hlt'] at hdiv
  simp only [Nat.add_zero] at hdiv
  have hidx := (List.Nodup.getElem_inj_iff (goods_nodup block)).mp hdiv
  rw [← Nat.div_add_mod l nand.erasesz, ← Nat.div_add_mod l' nand.erasesz, hmod, hidx]

/-- The bytes of the first block. -/
theorem place_first {block l : Nat} (h : block < nand.nblocks) (hgood : nand.bad block = false)
    (hl : l < nand.erasesz) : place nand block l = block * nand.erasesz + l := by
  rw [place, goods_succ h, hgood, Nat.div_eq_of_lt hl, Nat.mod_eq_of_lt hl]
  rfl

theorem place_skip {block : Nat} (h : block < nand.nblocks) (hbad : nand.bad block = true) (l : Nat) :
    place nand block l = place nand (block + 1) l := by
  rw [place, goods_succ h, hbad, place]
  rfl

theorem place_next {block : Nat} (h : block < nand.nblocks) (hgood : nand.bad block = false)
    (l : Nat) : place nand block (nand.erasesz + l) = place nand (block + 1) l := by
  rw [place, goods_succ h, hgood, Nat.add_div_left l nand.erasesz_pos, Nat.add_mod_left, place]
  rfl

end Goods

section Write
variable {nand : NandInfo} {dev : NandDev}

theorem skipBad_good {n block : Nat} (hgood : nand.bad block = false) :
    skipBad nand n block = block := by
  cases n with
  | zero => rfl
  | succ n => rw [skipBad, hgood, if_neg Bool.false_ne_true]

/-- A synchronisation brings the flash up to date and empties both caches. -/
theorem Coherent.sync (h : Coherent nand dev) :
    ∃ dev', dataDoSync nand dev = (dev', EOK) ∧ dev'.chip = dev.content nand ∧
      dev'.wnand = false ∧ dev'.rnand = false ∧ dev'.wblock = dev.wblock := by
  by_cases hw : dev.wnand = true
  · obtain ⟨hlt, hgood⟩ := h.wblock hw
    have hskip := skipBad_good (n := nand.nblocks - dev.wblock) hgood
    refine ⟨{ writeBlock nand { dev with rnand := false } dev.wblock with wnand := false }, ?_, ?_,
      rfl, rfl, rfl⟩
    · simp only [dataDoSync, hw, if_true, hskip, if_neg (Nat.not_le.mpr hlt)]
    · have hpages := Nor.programPages_erase dev.chip dev.block (dev.wblock * nand.erasesz)
        nand.writesz_dvd
      rw [NandDev.content, if_pos hw]
      exact hpages
  · refine ⟨{ dev with rnand := false }, ?_, ?_, ?_, rfl, rfl⟩
    · simp only [dataDoSync, if_neg hw]
    · rw [NandDev.content, if_neg hw]
    · exact Bool.eq_false_iff.mpr hw

theorem coherent_of_empty (hw : dev.wnand = false) (hr : dev.rnand = false) : Coherent nand dev where
  wblock := fun h => absurd h (by rw [hw]; exact Bool.false_ne_true)
  page := fun h => absurd h (by rw [hr]; exact Bool.false_ne_true)

/-- Pages are read to where they belong. -/
theorem loadPages_eq (dev : NandDev) (block i n : Nat) : loadPages nand dev block i n =
    { dev with
      block := patch dev.block (i * nand.writesz) (n * nand.writesz)
        fun k => dev.chip (block * nand.erasesz + i * nand.writesz + k) } := by
  induction n generalizing dev i with
  | zero =>
      rw [loadPages, Nat.zero_mul, patch_same]
      exact fun k hk => absurd hk (Nat.not_lt_zero k)
  | succ n ih =>
      rw [loadPages, ih]
      congr 1
      funext a
      have hi : (i + 1) * nand.writesz = i * nand.writesz + nand.writesz := Nat.succ_mul _ _
      have hn : (n + 1) * nand.writesz = n * nand.writesz + nand.writesz := Nat.succ_mul _ _
      simp only [nand.page_addr, patch, hi, hn]
      by_cases hlate : i * nand.writesz + nand.writesz ≤ a ∧
          a < i * nand.writesz + nand.writesz + n * nand.writesz
      · rw [if_pos hlate, if_pos (by omega)]
        congr 1
        omega
      · rw [if_neg hlate]
        by_cases hfirst : i * nand.writesz ≤ a ∧ a < i * nand.writesz + nand.writesz
        · rw [if_pos hfirst, if_pos (by omega)]
        · rw [if_neg hfirst, if_neg (by omega)]

theorem frontPages_le (nand : NandInfo) (boffs : Nat) : boffs ≤ frontPages nand boffs * nand.writesz := by
  have hpos := nand.writesz_pos
  have hdiv := Nat.div_add_mod (boffs + nand.writesz - 1) nand.writesz
  have hmod := Nat.mod_lt (boffs + nand.writesz - 1) hpos
  rw [frontPages, Nat.mul_comm]
  omega

theorem loadBlock_chip (dev : NandDev) (block boffs len : Nat) :
    (loadBlock nand dev block boffs len).chip = dev.chip := by
  rw [loadBlock, loadPages_eq, loadPages_eq]

/-- Outside the area to be written a block that was loaded is as on the flash. -/
theorem loadBlock_block {block boffs len k : Nat} (hk : k < nand.erasesz)
    (hout : k < boffs ∨ boffs + len ≤ k) :
    (loadBlock nand dev block boffs len).block k = dev.chip (block * nand.erasesz + k) := by
  have hpos := nand.writesz_pos
  have hpages := nand.erasesz_eq
  have hfront := frontPages_le nand boffs
  rw [loadBlock, loadPages_eq, loadPages_eq]
  simp only
  generalize frontPages nand boffs = front at *
  by_cases hbehind : max front ((boffs + len) / nand.writesz) * nand.writesz ≤ k
  · have hcount : max front ((boffs + len) / nand.writesz) * nand.writesz +
        (nand.npages - max front ((boffs + len) / nand.writesz)) * nand.writesz ≥ nand.erasesz := by
      rw [Nat.sub_mul, hpages]
      omega
    rw [patch_inside ⟨hbehind, by omega⟩]
    congr 1
    omega
  · rw [patch_outside fun h => hbehind h.1, patch_inside, Nat.zero_mul, Nat.add_zero, Nat.sub_zero]
    -- not behind the area means in front of it
    rw [Nat.zero_mul, Nat.zero_add]
    refine ⟨Nat.zero_le k, ?_⟩
    cases hout with
    | inl hlt => omega
    | inr hge =>
        have hmax : k < max front ((boffs + len) / nand.writesz) * nand.writesz := by omega
        have hle : (boffs + len) / nand.writesz * nand.writesz ≤ boffs + len := Nat.div_mul_le_self _ _
        by_cases hcase : front ≤ (boffs + len) / nand.writesz
        · rw [Nat.max_eq_right hcase] at hmax
          omega
        · rw [Nat.max_eq_left (by omega)] at hmax
          exact hmax

theorem loadBlock_content (hw : dev.wnand = false) {block boffs len a : Nat}
    (hout : ¬(block * nand.erasesz + boffs ≤ a ∧
      a < block * nand.erasesz + boffs + min len (nand.erasesz - boffs))) :
    (loadBlock nand dev block boffs len).content nand a = dev.content nand a := by
  have hchip : (loadBlock nand dev block boffs len).chip = dev.chip := loadBlock_chip dev block boffs len
  have hcontent : (loadBlock nand dev block boffs len).content nand =
      patch dev.chip (block * nand.erasesz) nand.erasesz
        (loadBlock nand dev block boffs len).block := by
    rw [← hchip]
    rfl
  have hold : dev.content nand = dev.chip := if_neg (by rw [hw]; exact Bool.false_ne_true)
  rw [hcontent, hold]
  by_cases hin : block * nand.erasesz ≤ a ∧ a < block * nand.erasesz + nand.erasesz
  · rw [patch_inside hin, loadBlock_block (by omega) (by omega), Nat.add_sub_cancel' hin.1]
  · exact patch_outside hin

/-- The block gets cached; what is not to be written keeps its value. -/
theorem Coherent.cacheBlock (h : Coherent nand dev) (hr : dev.rnand = false) (block boffs len : Nat) :
    ∃ dev', cacheBlock nand dev block boffs len = (dev', .ready) ∧ dev'.wnand = true ∧
      dev'.wblock = block ∧ dev'.rnand = false ∧
      ∀ a, ¬(block * nand.erasesz + boffs ≤ a ∧
          a < block * nand.erasesz + boffs + min len (nand.erasesz - boffs)) →
        dev'.content nand a = dev.content nand a := by
  have hload : ∀ dev : NandDev, (loadBlock nand dev block boffs len).rnand = dev.rnand := by
    intro dev
    rw [loadBlock, loadPages_eq, loadPages_eq]
  rw [Nand.cacheBlock]
  by_cases hsame : dev.wnand = true ∧ block = dev.wblock
  · exact ⟨dev, if_pos hsame, hsame.1, hsame.2.symm, hr, fun _ _ => rfl⟩
  · rw [if_neg hsame]
    by_cases hw : dev.wnand = true
    · obtain ⟨dev₁, hsync, hchip, hw₁, hr₁, hblock⟩ := h.sync
      have hcontent : dev₁.content nand = dev.content nand := by
        rw [← hchip]
        exact if_neg (by rw [hw₁]; exact Bool.false_ne_true)
      refine ⟨loadBlock nand dev₁ block boffs len, ?_, rfl, rfl, (hload dev₁).trans hr₁,
        fun a hout => ?_⟩
      · have hok : ¬EOK < 0 := by decide
        have hnot : ¬(dev.wblock < block ∧ block ≤ dev₁.wblock) := by omega
        rw [if_pos hw, hsync]
        exact (if_neg hok).trans (if_neg hnot)
      · rw [loadBlock_content hw₁ hout, hcontent]
    · refine ⟨loadBlock nand dev block boffs len, if_neg hw, rfl, rfl, (hload dev).trans hr,
        fun a hout => ?_⟩
      rw [loadBlock_content (Bool.eq_false_iff.mpr hw) hout]

/-- A round over a good block writes its part of the data. -/
theorem Coherent.writeRound (h : Coherent nand dev) (hr : dev.rnand = false) {block boffs : Nat}
    (data : List UInt8) (hblock : block < nand.nblocks) (hgood : nand.bad block = false)
    (hboffs : boffs ≤ nand.erasesz) :
    ∃ dev', Nand.cacheBlock nand dev block boffs data.length = (dev', .ready) ∧
      ∀ dev'', dev'' = { dev' with
          block := overlay dev'.block boffs (data.take (min data.length (nand.erasesz - boffs))) } →
        Coherent nand dev'' ∧ dev''.rnand = false ∧
        dev''.content nand = overlay (dev.content nand) (block * nand.erasesz + boffs)
          (data.take (min data.length (nand.erasesz - boffs))) := by
  obtain ⟨dev', hcache, hw, hwblock, hr', hcontent⟩ := h.cacheBlock hr block boffs data.length
  have hlen : (data.take (min data.length (nand.erasesz - boffs))).length =
      min data.length (nand.erasesz - boffs) := List.length_take_of_le (Nat.min_le_left _ _)
  refine ⟨dev', hcache, fun dev'' hdev => ?_⟩
  have hpatch : dev''.content nand = overlay (dev'.content nand) (block * nand.erasesz + boffs)
      (data.take (min data.length (nand.erasesz - boffs))) := by
    rw [hdev, NandDev.content, NandDev.content, if_pos hw, if_pos hw, hwblock,
      patch_overlay _ (by omega)]
  refine ⟨⟨fun _ => ?_, fun hrnand => ?_⟩, ?_, ?_⟩
  · rw [hdev, hwblock]
    exact ⟨hblock, hgood⟩
  · rw [hdev, hr'] at hrnand
    exact absurd hrnand Bool.false_ne_true
  · rw [hdev]
    exact hr'
  · rw [hpatch]
    refine overlay_eq_of_agree _ fun a hout => hcontent a ?_
    rw [hlen] at hout
    exact hout

theorem capacity_skip {block : Nat} (h : block < nand.nblocks) (hbad : nand.bad block = true) :
    capacity nand block = capacity nand (block + 1) := by
  rw [capacity, goods_succ h, hbad, capacity]
  rfl

theorem capacity_next {block : Nat} (h : block < nand.nblocks) (hgood : nand.bad block = false) :
    capacity nand block = nand.erasesz + capacity nand (block + 1) := by
  rw [capacity, goods_succ h, hgood, if_neg Bool.false_ne_true, List.length_cons, Nat.succ_mul,
    Nat.add_comm, capacity]

theorem capacity_of_ge {block : Nat} (h : nand.nblocks ≤ block) : capacity nand block = 0 := by
  rw [capacity, goods_of_ge h, List.length_nil, Nat.zero_mul]

/-- Data for the good blocks from one on: a part for the first, the rest for the
others. -/
theorem scatter_first (mem : Nat → UInt8) {block boffs : Nat} {data : List UInt8}
    (hblock : block < nand.nblocks) (hgood : nand.bad block = false) (hboffs : boffs < nand.erasesz) :
    scatter (place nand block) mem boffs (data.take (capacity nand block - boffs)) =
      scatter (place nand (block + 1))
        (overlay mem (block * nand.erasesz + boffs)
          (data.take (min data.length (nand.erasesz - boffs)))) 0
        ((data.drop (min data.length (nand.erasesz - boffs))).take (capacity nand (block + 1))) := by
  have htake : (data.take (min data.length (nand.erasesz - boffs))).length =
      min data.length (nand.erasesz - boffs) := List.length_take_of_le (Nat.min_le_left _ _)
  have hsplit : data.take (capacity nand block - boffs) =
      data.take (min data.length (nand.erasesz - boffs)) ++
        (data.drop (min data.length (nand.erasesz - boffs))).take (capacity nand (block + 1)) := by
    rw [← List.take_add, capacity_next hblock hgood]
    by_cases hlen : data.length ≤ nand.erasesz - boffs
    · rw [List.take_of_length_le (by omega), List.take_of_length_le (by omega)]
    · congr 1
      omega
  rw [hsplit, scatter_append, htake, scatter_eq_overlay mem fun k hk => ?_]
  · refine scatter_congr _ fun k hk => ?_
    rw [List.length_take, List.length_drop] at hk
    have hend : boffs + min data.length (nand.erasesz - boffs) = nand.erasesz := by omega
    rw [hend, Nat.zero_add, place_next hblock hgood]
  · rw [htake] at hk
    rw [place_first hblock hgood (by omega), Nat.add_assoc]

theorem Coherent.writeLoop (fuel : Nat) (h : Coherent nand dev) (hr : dev.rnand = false)
    (block : Nat) {boffs : Nat} (data : List UInt8) (ret : Nat) (hfuel : nand.nblocks ≤ block + fuel)
    (hboffs : boffs < nand.erasesz) :
    ∃ dev', writeLoop nand fuel dev block boffs data ret =
        (dev', ((ret + min data.length (capacity nand block - boffs) : Nat) : Int)) ∧
      Coherent nand dev' ∧ dev'.content nand = scatter (place nand block) (dev.content nand) boffs
        (data.take (capacity nand block - boffs)) := by
  induction fuel generalizing dev block boffs data ret with
  | zero =>
      refine ⟨dev, ?_, h, ?_⟩
      · rw [capacity_of_ge (by omega), Nat.zero_sub, Nat.min_zero, Nat.add_zero]
        rfl
      · rw [capacity_of_ge (by omega), Nat.zero_sub, List.take_zero]
        rfl
  | succ fuel ih =>
      rw [Nand.writeLoop]
      by_cases hgo : block < nand.nblocks ∧ data ≠ []
      · rw [if_pos hgo]
        cases hbad : nand.bad block with
        | true =>
            obtain ⟨dev', hloop, hcoh, hcontent⟩ :=
              ih h hr (block + 1) data ret (by omega) hboffs
            rw [if_pos rfl, hloop, capacity_skip hgo.1 hbad]
            refine ⟨dev', rfl, hcoh, ?_⟩
            rw [hcontent]
            exact scatter_congr _ fun k _ => (place_skip hgo.1 hbad _).symm
        | false =>
            obtain ⟨dev₁, hcache, hround⟩ := h.writeRound hr data hgo.1 hbad
              (Nat.le_of_lt hboffs)
            obtain ⟨hcoh₁, hr₁, hcontent₁⟩ := hround _ rfl
            obtain ⟨dev', hloop, hcoh, hcontent⟩ := ih hcoh₁ hr₁ (block + 1)
              (data.drop (min data.length (nand.erasesz - boffs)))
              (ret + min data.length (nand.erasesz - boffs)) (by omega) nand.erasesz_pos
            refine ⟨dev', ?_, hcoh, ?_⟩
            · rw [if_neg Bool.false_ne_true, hcache]
              refine hloop.trans ?_
              rw [List.length_drop, capacity_next hgo.1 hbad]
              congr 2
              omega
            · rw [hcontent, hcontent₁, scatter_first _ hgo.1 hbad hboffs, Nat.sub_zero]
      · rw [if_neg hgo]
        have hnone : data.take (capacity nand block - boffs) = [] := by
          by_cases hblock : block < nand.nblocks
          · have hdata : data = [] := Decidable.not_not.mp fun hne => hgo ⟨hblock, hne⟩
            rw [hdata, List.take_nil]
          · rw [capacity_of_ge (by omega), Nat.zero_sub, List.take_zero]
        have hzero := congrArg List.length hnone
        rw [List.length_take, List.length_nil, Nat.min_comm] at hzero
        refine ⟨dev, ?_, h, ?_⟩
        · rw [hzero, Nat.add_zero]
        · rw [hnone]
          rfl

end Write

section Read
variable {nand : NandInfo} {dev : NandDev}

/-- The devices differ in the page cache only. -/
structure SameContent (dev dev' : NandDev) : Prop where
  chip : dev'.chip = dev.chip
  block : dev'.block = dev.block
  wnand : dev'.wnand = dev.wnand
  wblock : dev'.wblock = dev.wblock

theorem SameContent.trans {dev₁ dev₂ : NandDev} (h₁ : SameContent dev dev₁)
    (h₂ : SameContent dev₁ dev₂) : SameContent dev dev₂ :=
  ⟨h₂.chip.trans h₁.chip, h₂.block.trans h₁.block, h₂.wnand.trans h₁.wnand,
    h₂.wblock.trans h₁.wblock⟩

theorem SameContent.content {dev' : NandDev} (h : SameContent dev dev') :
    dev'.content nand = dev.content nand := by
  rw [NandDev.content, NandDev.content, h.chip, h.block, h.wnand, h.wblock]

theorem Coherent.cachePage (h : Coherent nand dev) (page : Nat) :
    Coherent nand (cachePage nand dev page) ∧ SameContent dev (cachePage nand dev page) ∧
      ∀ k, k < nand.writesz →
        (Nand.cachePage nand dev page).page k = dev.chip (page * nand.writesz + k) := by
  rw [Nand.cachePage]
  split
  · next hsame =>
    refine ⟨h, ⟨rfl, rfl, rfl, rfl⟩, fun k hk => ?_⟩
    rw [hsame.2]
    exact h.page hsame.1 k hk
  · have hpage : ∀ k, k < nand.writesz →
        patch dev.page 0 nand.writesz (fun k => dev.chip (page * nand.writesz + k)) k =
          dev.chip (page * nand.writesz + k) := by
      intro k hk
      rw [patch_inside ⟨Nat.zero_le k, by omega⟩, Nat.sub_zero]
    exact ⟨⟨h.wblock, fun _ => hpage⟩, ⟨rfl, rfl, rfl, rfl⟩, hpage⟩

theorem Coherent.readPages (n : Nat) (h : Coherent nand dev) (page len : Nat) {poffs : Nat}
    (hpoffs : poffs < nand.writesz) :
    ∃ dev', readPages nand n dev page poffs len =
        (dev', slice dev.chip (page * nand.writesz + poffs) (min len (n * nand.writesz - poffs))) ∧
      Coherent nand dev' ∧ SameContent dev dev' := by
  induction n generalizing dev page poffs len with
  | zero =>
      refine ⟨dev, ?_, h, rfl, rfl, rfl, rfl⟩
      rw [Nat.zero_mul, Nat.zero_sub, Nat.min_zero]
      rfl
  | succ n ih =>
      rw [Nand.readPages]
      by_cases hlen : 0 < len
      · obtain ⟨hcoh, hsame, hpage⟩ := h.cachePage page
        obtain ⟨dev', hrest, hcoh', hsame'⟩ := ih hcoh (page + 1)
          (len - min len (nand.writesz - poffs)) nand.writesz_pos
        have hfirst : slice (Nand.cachePage nand dev page).page poffs
            (min len (nand.writesz - poffs)) =
            slice dev.chip (page * nand.writesz + poffs) (min len (nand.writesz - poffs)) := by
          rw [slice_eq_iff]
          intro k hk
          rw [hpage _ (by omega), Nat.add_assoc]
        refine ⟨dev', ?_, hcoh', hsame.trans hsame'⟩
        simp only [if_pos hlen, hrest, hfirst, hsame.chip]
        rw [Nat.add_mul, Nat.add_mul, Nat.one_mul]
        congr 1
        by_cases hpart : len ≤ nand.writesz - poffs
        · have hnone : min (len - min len (nand.writesz - poffs)) (n * nand.writesz - 0) = 0 := by omega
          have hall : min len (n * nand.writesz + nand.writesz - poffs) =
              min len (nand.writesz - poffs) := by omega
          rw [hnone, hall]
          exact List.append_nil _
        · have hsum : min len (n * nand.writesz + nand.writesz - poffs) =
              min len (nand.writesz - poffs) +
                min (len - min len (nand.writesz - poffs)) (n * nand.writesz - 0) := by omega
          have hnext : page * nand.writesz + nand.writesz + 0 =
              page * nand.writesz + poffs + min len (nand.writesz - poffs) := by omega
          rw [hsum, slice_add, hnext]
      · refine ⟨dev, ?_, h, rfl, rfl, rfl, rfl⟩
        have hzero : len = 0 := by omega
        rw [if_neg hlen, hzero, Nat.zero_min]
        rfl

/-- Data of the good blocks from one on: a part of the first, the rest of the
others. -/
theorem gather_first (mem : Nat → UInt8) {block boffs len : Nat} (hblock : block < nand.nblocks)
    (hgood : nand.bad block = false) (hboffs : boffs < nand.erasesz) :
    gather (place nand block) mem boffs (min len (capacity nand block - boffs)) =
      slice mem (block * nand.erasesz + boffs) (min len (nand.erasesz - boffs)) ++
        gather (place nand (block + 1)) mem 0
          (min (len - min len (nand.erasesz - boffs)) (capacity nand (block + 1))) := by
  have hsum : min len (capacity nand block - boffs) = min len (nand.erasesz - boffs) +
      min (len - min len (nand.erasesz - boffs)) (capacity nand (block + 1)) := by
    rw [capacity_next hblock hgood]
    omega
  rw [hsum, gather_add, gather_eq_slice fun k hk => ?_]
  · congr 1
    refine gather_congr fun k hk => ?_
    have hend : boffs + min len (nand.erasesz - boffs) = nand.erasesz := by omega
    rw [hend, Nat.zero_add, place_next hblock hgood]
  · rw [place_first hblock hgood (by omega), Nat.add_assoc]

/-- A round over a good block reads its part. -/
theorem Coherent.readRound (h : Coherent nand dev) {block boffs : Nat} (len : Nat)
    (hother : ¬(dev.wnand = true ∧ block = dev.wblock)) (hboffs : boffs < nand.erasesz) :
    ∃ dev', Nand.readPages nand (nand.npages - boffs / nand.writesz) dev
        (block * nand.npages + boffs / nand.writesz) (boffs % nand.writesz) len =
        (dev', slice (dev.content nand) (block * nand.erasesz + boffs)
          (min len (nand.erasesz - boffs))) ∧ Coherent nand dev' ∧ SameContent dev dev' := by
  have hpages := nand.erasesz_eq
  have hboffs' := Nat.div_add_mod boffs nand.writesz
  obtain ⟨dev', hread, hcoh, hsame⟩ := h.readPages (nand.npages - boffs / nand.writesz)
    (block * nand.npages + boffs / nand.writesz) len (Nat.mod_lt boffs nand.writesz_pos)
  refine ⟨dev', ?_, hcoh, hsame⟩
  have hsrc : (block * nand.npages + boffs / nand.writesz) * nand.writesz + boffs % nand.writesz =
      block * nand.erasesz + boffs := by
    rw [nand.page_addr, Nat.mul_comm (boffs / nand.writesz)]
    omega
  have hcount : (nand.npages - boffs / nand.writesz) * nand.writesz - boffs % nand.writesz =
      nand.erasesz - boffs := by
    rw [Nat.sub_mul, hpages, Nat.mul_comm (boffs / nand.writesz)]
    omega
  rw [hread, hsrc, hcount]
  congr 1
  rw [slice_eq_iff]
  intro k hk
  rw [NandDev.content]
  split
  · next hw =>
    refine (patch_outside ?_).symm
    have hne : block ≠ dev.wblock := fun heq => hother ⟨hw, heq⟩
    cases Nat.lt_or_gt_of_ne hne with
    | inl hlt =>
        have hle := Nat.mul_le_mul_right nand.erasesz (Nat.succ_le_of_lt hlt)
        rw [Nat.succ_mul] at hle
        omega
    | inr hgt =>
        have hle := Nat.mul_le_mul_right nand.erasesz (Nat.succ_le_of_lt hgt)
        rw [Nat.succ_mul] at hle
        omega
  · rfl

theorem Coherent.readLoop (fuel : Nat) (h : Coherent nand dev) (block len : Nat) {boffs : Nat}
    (hfuel : nand.nblocks ≤ block + fuel) (hboffs : boffs < nand.erasesz) :
    ∃ dev', readLoop nand fuel dev block boffs len =
        (dev', gather (place nand block) (dev.content nand) boffs
          (min len (capacity nand block - boffs))) ∧
      Coherent nand dev' ∧ SameContent dev dev' := by
  induction fuel generalizing dev block boffs len with
  | zero =>
      refine ⟨dev, ?_, h, rfl, rfl, rfl, rfl⟩
      rw [capacity_of_ge (by omega), Nat.zero_sub, Nat.min_zero]
      rfl
  | succ fuel ih =>
      rw [Nand.readLoop]
      by_cases hgo : block < nand.nblocks ∧ 0 < len
      · rw [if_pos hgo]
        cases hbad : nand.bad block with
        | true =>
            obtain ⟨dev', hloop, hcoh, hsame⟩ := ih h (block + 1) len (by omega) hboffs
            refine ⟨dev', ?_, hcoh, hsame⟩
            rw [if_pos rfl, hloop, capacity_skip hgo.1 hbad]
            congr 1
            exact gather_congr fun k _ => (place_skip hgo.1 hbad _).symm
        | false =>
            rw [if_neg Bool.false_ne_true, gather_first _ hgo.1 hbad hboffs]
            by_cases hcached : dev.wnand = true ∧ block = dev.wblock
            · obtain ⟨dev', hloop, hcoh, hsame⟩ := ih h (block + 1)
                (len - min len (nand.erasesz - boffs)) (by omega) nand.erasesz_pos
              refine ⟨dev', ?_, hcoh, hsame⟩
              have hslice : slice dev.block boffs (min len (nand.erasesz - boffs)) =
                  slice (dev.content nand) (block * nand.erasesz + boffs)
                    (min len (nand.erasesz - boffs)) := by
                rw [slice_eq_iff]
                intro k hk
                rw [NandDev.content, if_pos hcached.1, hcached.2, Nat.add_assoc, patch_add (by omega)]
              simp only [if_pos hcached, hloop, hslice, Nat.sub_zero]
            · obtain ⟨dev₁, hround, hcoh₁, hsame₁⟩ := h.readRound len hcached hboffs
              obtain ⟨dev', hloop, hcoh, hsame⟩ := ih hcoh₁ (block + 1)
                (len - min len (nand.erasesz - boffs)) (by omega) nand.erasesz_pos
              refine ⟨dev', ?_, hcoh, hsame₁.trans hsame⟩
              simp only [if_neg hcached, hround, length_slice, hloop, hsame₁.content, Nat.sub_zero]
      · refine ⟨dev, ?_, h, rfl, rfl, rfl, rfl⟩
        have hnone : min len (capacity nand block - boffs) = 0 := by
          by_cases hblock : block < nand.nblocks
          · have hzero : len = 0 := by omega
            rw [hzero, Nat.zero_min]
          · rw [capacity_of_ge (by omega), Nat.zero_sub, Nat.min_zero]
        rw [if_neg hgo, hnone]
        rfl

end Read

end Plo.Devices.Nand
