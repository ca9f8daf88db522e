import Plo.Devices.NandChunks

/-!
Whole transfers: data written in calls of any sizes and read back in one call or in
calls of any sizes, against one call for all of the data.
-/
namespace Plo.Devices.Nand

/-- Data written in calls of the given sizes and synchronised is on the flash as if
written in one call, and is read back in one call and in calls of other sizes. -/
def RoundTrips (nand : NandInfo) (offs : Nat) (sizes rsizes : List Nat) : Prop :=
  ∀ (dev : NandDev) (data : List UInt8), Coherent nand dev → data.length = sizes.sum →
    let one := (dataDoSync nand (dataWrite nand dev offs data).1).1
    let many := (dataDoSync nand (writeChunks nand dev offs data sizes).1).1
    many.chip = one.chip ∧ (dataRead nand many offs data.length).2.1 = data ∧
      (readChunks nand many offs rsizes).2 = data

section Transfers
variable {nand : NandInfo} {dev : NandDev} {offs : Nat}

theorem Coherent.synced (h : Coherent nand dev) :
    Coherent nand (dataDoSync nand dev).1 ∧ (dataDoSync nand dev).1.chip = dev.content nand ∧
      (dataDoSync nand dev).1.content nand = dev.content nand := by
  obtain ⟨dev', hsync, hchip, hw, hr, _⟩ := h.sync
  rw [hsync]
  refine ⟨coherent_of_empty hw hr, hchip, ?_⟩
  rw [← hchip]
  exact if_neg (by rw [hw]; exact Bool.false_ne_true)

theorem Coherent.writeChunks_coherent (sizes : List Nat) (h : Coherent nand dev) (offs : Nat)
    (data : List UInt8) : Coherent nand (Nand.writeChunks nand dev offs data sizes).1 := by
  induction sizes generalizing dev offs data with
  | nil => exact h
  | cons n sizes ih =>
      have hcoh := (h.dataWrite offs (data.take n)).1
      rw [Nand.writeChunks]
      split
      · exact hcoh
      · exact ih hcoh _ _

/-- Data that fits is read back from where one call put it. -/
theorem gather_of_fits (mem : Nat → UInt8) {data : List UInt8}
    (hfits : data.length ≤ room nand offs) :
    gather (place nand (offs / nand.erasesz))
        (scatter (place nand (offs / nand.erasesz)) mem (offs % nand.erasesz) data)
        (offs % nand.erasesz) data.length = data := by
  rw [room] at hfits
  refine gather_scatter fun j k hj hk heq => ?_
  have hjk := place_inj (by omega) (by omega) heq
  omega

theorem roundTrips_of_clear {sizes rsizes : List Nat} (hsum : rsizes.sum = sizes.sum)
    (hfits : sizes.sum ≤ room nand offs) (hclear : ChunksClear nand offs 0 sizes)
    (hrclear : ChunksClear nand offs 0 rsizes) : RoundTrips nand offs sizes rsizes := by
  intro dev data h hlen one many
  obtain ⟨dev', hchunks, hcoh, hcontent⟩ := h.writeChunks sizes [] data hclear (by omega)
    (by omega) (Or.inl rfl)
  rw [List.append_nil, Nat.add_zero] at hchunks
  have hmany : (writeChunks nand dev offs data sizes).1 = dev' := hchunks
  rw [Nat.add_zero, List.take_of_length_le (by omega)] at hcontent
  obtain ⟨hcoh₁, hcontent₁, _⟩ := h.dataWrite offs data
  rw [List.take_of_length_le (by omega)] at hcontent₁
  obtain ⟨hcoh', hchip', hcontent'⟩ := hcoh.synced
  have hdata : data.length ≤ room nand offs := by omega
  have hgather := gather_of_fits (dev.content nand) hdata
  have hread := (hcoh'.dataRead offs data.length).2.2.1
  obtain ⟨_, hreads, _, _⟩ := hcoh'.readChunks rsizes [] hrclear (by omega) (Or.inl rfl)
  rw [hcontent', hcontent, Nat.min_eq_left (by omega)] at hread
  rw [hcontent', hcontent, List.append_nil, Nat.add_zero, Nat.add_zero, hsum, ← hlen, hgather]
    at hreads
  refine ⟨?_, ?_, ?_⟩
  · show (dataDoSync nand (writeChunks nand dev offs data sizes).1).1.chip = one.chip
    rw [hmany, hchip', hcontent]
    exact (hcoh₁.synced.2.1.trans hcontent₁).symm
  · show (Nand.dataRead nand (dataDoSync nand (writeChunks nand dev offs data sizes).1).1 _ _).2.1 = _
    rw [hmany, hread, hgather]
  · show (Nand.readChunks nand (dataDoSync nand (writeChunks nand dev offs data sizes).1).1 _ _).2 = _
    rw [hmany, hreads]
    exact List.append_nil data

/-- Data that is read back fits. -/
theorem fits_of_roundTrips {sizes rsizes : List Nat} (h : RoundTrips nand offs sizes rsizes) :
    sizes.sum ≤ room nand offs := by
  have hempty : Coherent nand (dataInit (fun _ => 0) (fun _ => 0) fun _ => 0) :=
    coherent_of_empty rfl rfl
  obtain ⟨_, hread, _⟩ := h _ (List.replicate sizes.sum 0) hempty List.length_replicate
  have hmany := (hempty.writeChunks_coherent sizes offs (List.replicate sizes.sum 0)).synced.1
  rw [(hmany.dataRead offs _).2.2.1] at hread
  have hlen := congrArg List.length hread
  rw [length_gather, List.length_replicate] at hlen
  omega

/-- Zeros, and ones from byte `l` on. -/
def stepData (l n : Nat) : List UInt8 := List.replicate l 0 ++ List.replicate n 1

theorem length_stepData (l n : Nat) : (stepData l n).length = l + n := by
  rw [stepData, List.length_append, List.length_replicate, List.length_replicate]

theorem drop_stepData (l n : Nat) : (stepData l n).drop l = List.replicate n 1 := by
  rw [stepData, List.drop_append_of_le_length (by rw [List.length_replicate]),
    List.drop_of_length_le (by rw [List.length_replicate]), List.nil_append]

/-- Behind a bad block a call starts in a place that one call has used before. -/
theorem misplaced {l n : Nat} (hfits : l + n ≤ room nand offs) (hn : n ≠ 0)
    (hbad : ¬Clear nand offs l) :
    room nand (offs + l) ≠ 0 ∧
      scatter (place nand (offs / nand.erasesz)) (fun _ => 0) (offs % nand.erasesz) (stepData l n)
        (place nand ((offs + l) / nand.erasesz) ((offs + l) % nand.erasesz)) = 0 := by
  have hsize := room_le nand offs
  have hblock : (offs + l) / nand.erasesz ≤ nand.nblocks := Nat.div_le_div_right (by omega)
  obtain ⟨q, hle, hclear, hplace, hroom⟩ := place_shift hblock
  have hlt : q < offs % nand.erasesz + l :=
    Nat.lt_of_le_of_ne hle fun heq => hbad (hclear.mpr heq)
  have hq := hplace 0
  rw [Nat.add_zero, Nat.add_zero] at hq
  rw [room] at hfits
  refine ⟨by omega, ?_⟩
  rw [hq, stepData, scatter_append, List.length_replicate]
  rw [scatter_outside _ fun k hk heq => ?_]
  · exact scatter_keep _ (fun x hx => List.eq_of_mem_replicate hx) rfl
  · rw [List.length_replicate] at hk
    have hkq := place_inj (by omega) (by omega) heq
    omega

/-- Data whose bytes are all the same leaves a byte that has the value. -/
theorem Coherent.writeChunks_keep (sizes : List Nat) (h : Coherent nand dev) (offs : Nat)
    {data : List UInt8} {v : UInt8} {a : Nat} (hdata : ∀ x ∈ data, x = v)
    (ha : dev.content nand a = v) : (Nand.writeChunks nand dev offs data sizes).1.content nand a = v := by
  induction sizes generalizing dev offs data with
  | nil => exact ha
  | cons n sizes ih =>
      obtain ⟨hcoh, hcontent, _⟩ := h.dataWrite offs (data.take n)
      have hv : (Nand.dataWrite nand dev offs (data.take n)).1.content nand a = v := by
        rw [hcontent]
        exact scatter_keep _ (fun x hx => hdata x (List.mem_of_mem_take (List.mem_of_mem_take hx))) ha
      rw [Nand.writeChunks]
      split
      · exact hv
      · exact ih hcoh _ (fun x hx => hdata x (List.mem_of_mem_drop hx)) hv

/-- The first call leaves the value where it starts, and so do the others. -/
theorem Coherent.writeChunks_first (h : Coherent nand dev) (hroom : room nand offs ≠ 0) {n : Nat}
    (hn : n ≠ 0) (sizes : List Nat) {data : List UInt8} {v : UInt8} (hne : data ≠ [])
    (hdata : ∀ x ∈ data, x = v) :
    (Nand.writeChunks nand dev offs data (n :: sizes)).1.content nand
      (place nand (offs / nand.erasesz) (offs % nand.erasesz)) = v := by
  obtain ⟨hcoh, hcontent, _⟩ := h.dataWrite offs (data.take n)
  have hpos := List.length_pos_iff.mpr hne
  have hv : (Nand.dataWrite nand dev offs (data.take n)).1.content nand
      (place nand (offs / nand.erasesz) (offs % nand.erasesz)) = v := by
    rw [hcontent]
    refine scatter_first_same _
      (fun x hx => hdata x (List.mem_of_mem_take (List.mem_of_mem_take hx))) ?_
    exact List.ne_nil_of_length_pos (by rw [List.length_take, List.length_take]; omega)
  rw [Nand.writeChunks]
  split
  · exact hv
  · exact hcoh.writeChunks_keep sizes _ (fun x hx => hdata x (List.mem_of_mem_drop hx)) hv

theorem clear_of_roundTrips {sizes rsizes : List Nat} (h : RoundTrips nand offs sizes rsizes) :
    ChunksClear nand offs 0 sizes := by
  have hfits := fits_of_roundTrips h
  have hempty : Coherent nand (dataInit (fun _ => 0) (fun _ => 0) fun _ => 0) :=
    coherent_of_empty rfl rfl
  by_contra hunclear
  obtain ⟨pre, n, post, hsizes, hn, hbad, hpre⟩ := exists_first_unclear hunclear
  have hsum : sizes.sum = pre.sum + (n + post.sum) := by
    rw [hsizes, List.sum_append, List.sum_cons]
  rw [Nat.zero_add] at hbad
  obtain ⟨hroom, hone⟩ := misplaced (by omega : pre.sum + (n + post.sum) ≤ _) (by omega) hbad
  obtain ⟨hchip, _, _⟩ := h _ (stepData pre.sum (n + post.sum)) hempty
    (by rw [length_stepData, hsum])
  -- one call leaves a zero there
  obtain ⟨hcoh₁, hcontent₁, _⟩ := hempty.dataWrite offs (stepData pre.sum (n + post.sum))
  rw [List.take_of_length_le (by rw [length_stepData]; omega)] at hcontent₁
  -- the calls store a one there
  obtain ⟨dev', hchunks, hcoh', _⟩ := hempty.writeChunks pre (n :: post)
    (stepData pre.sum (n + post.sum)) hpre (by rw [length_stepData]; omega) (by omega)
    (Or.inr (by omega))
  rw [← hsizes, Nat.add_zero, Nat.zero_add, drop_stepData] at hchunks
  have hmany := hcoh'.writeChunks_first hroom hn post
    (List.ne_nil_of_length_pos (by rw [List.length_replicate]; omega))
    (fun x (hx : x ∈ List.replicate (n + post.sum) 1) => List.eq_of_mem_replicate hx)
  rw [← hchunks] at hmany
  have hcoh := hempty.writeChunks_coherent sizes offs (stepData pre.sum (n + post.sum))
  rw [hcoh.synced.2.1, hcoh₁.synced.2.1, hcontent₁] at hchip
  have hcontra := congrFun hchip
    (place nand ((offs + pre.sum) / nand.erasesz) ((offs + pre.sum) % nand.erasesz))
  rw [hmany] at hcontra
  exact absurd (hcontra.trans hone) (by decide)

/-- The first byte that calls read is the one where the first of them starts. -/
theorem Coherent.readChunks_first (h : Coherent nand dev) (hroom : room nand offs ≠ 0) {n : Nat}
    (hn : n ≠ 0) (sizes : List Nat) :
    ∃ rest, (Nand.readChunks nand dev offs (n :: sizes)).2 =
      dev.content nand (place nand (offs / nand.erasesz) (offs % nand.erasesz)) :: rest := by
  have hsize := room_le nand offs
  obtain ⟨_, _, hdata, hret⟩ := h.dataRead offs n
  obtain ⟨m, hm⟩ := Nat.exists_eq_add_of_le' (by omega : 1 ≤ min n (room nand offs))
  rw [if_pos (by omega)] at hret
  rw [hm, Nat.add_comm, gather_add] at hdata
  rw [Nand.readChunks, hret, if_neg (by omega), hdata]
  exact ⟨_, rfl⟩

theorem read_clear_of_roundTrips {sizes rsizes : List Nat} (hsum : rsizes.sum = sizes.sum)
    (h : RoundTrips nand offs sizes rsizes) : ChunksClear nand offs 0 rsizes := by
  have hfits := fits_of_roundTrips h
  have hempty : Coherent nand (dataInit (fun _ => 0) (fun _ => 0) fun _ => 0) :=
    coherent_of_empty rfl rfl
  by_contra hunclear
  obtain ⟨pre, n, post, hsizes, hn, hbad, hpre⟩ := exists_first_unclear hunclear
  have hsum' : rsizes.sum = pre.sum + (n + post.sum) := by
    rw [hsizes, List.sum_append, List.sum_cons]
  rw [Nat.zero_add] at hbad
  obtain ⟨hroom, hone⟩ := misplaced (by omega : pre.sum + (n + post.sum) ≤ _) (by omega) hbad
  obtain ⟨hchip, _, hreads⟩ := h _ (stepData pre.sum (n + post.sum)) hempty
    (by rw [length_stepData]; omega)
  obtain ⟨hcoh₁, hcontent₁, _⟩ := hempty.dataWrite offs (stepData pre.sum (n + post.sum))
  rw [List.take_of_length_le (by rw [length_stepData]; omega)] at hcontent₁
  have hmany := (hempty.writeChunks_coherent sizes offs (stepData pre.sum (n + post.sum))).synced
  rw [hmany.2.1, hcoh₁.synced.2.1, hcontent₁] at hchip
  obtain ⟨dev', hchunks, hcoh', hcontent'⟩ := hmany.1.readChunks pre (n :: post) hpre (by omega)
    (Or.inr (by omega))
  rw [← hsizes, Nat.add_zero, Nat.zero_add, hreads] at hchunks
  obtain ⟨rest, hfirst⟩ := hcoh'.readChunks_first hroom hn post
  rw [hcontent', hmany.2.2, hchip] at hfirst
  have hdrop := congrArg (List.drop pre.sum) hchunks
  rw [drop_stepData, List.drop_append_of_le_length (by rw [length_gather]),
    List.drop_of_length_le (by rw [length_gather]), List.nil_append, hfirst] at hdrop
  have hhead := List.mem_cons_self (a := scatter (place nand (offs / nand.erasesz)) (fun _ => 0)
    (offs % nand.erasesz) (stepData pre.sum (n + post.sum))
    (place nand ((offs + pre.sum) / nand.erasesz) ((offs + pre.sum) % nand.erasesz))) (l := rest)
  have hfirst' := List.eq_of_mem_replicate (hdrop ▸ hhead)
  exact absurd (hfirst'.symm.trans hone) (by decide)

end Transfers

/-- Transfers in calls of any sizes agree with one call and are read back exactly
when the data fits into the good blocks and no call that is not empty starts
behind a bad block, counted from the first block. -/
theorem chunked_transfers_iff (nand : NandInfo) (offs : Nat) (sizes rsizes : List Nat)
    (hsum : rsizes.sum = sizes.sum) :
    RoundTrips nand offs sizes rsizes ↔
      sizes.sum ≤ room nand offs ∧ ChunksClear nand offs 0 sizes ∧
        ChunksClear nand offs 0 rsizes := by
  constructor
  · intro h
    exact ⟨fits_of_roundTrips h, clear_of_roundTrips h, read_clear_of_roundTrips hsum h⟩
  · intro h
    exact roundTrips_of_clear hsum h.1 h.2.1 h.2.2

/-- The 8 Gbit flash, with its bad blocks. -/
def mt29f8g (bad : Nat → Bool) : NandInfo where
  size := 4096 * 64 * 4096
  writesz := 4096
  erasesz := 4096 * 64
  bad := bad
  writesz_pos := by decide
  writesz_dvd := by decide
  erasesz_pos := by decide
  erasesz_dvd := by decide
  size_lt := by decide

/-- Two bytes over the border of the first two blocks, the third block being bad. -/
theorem chunked_transfers_iff_border : RoundTrips (mt29f8g (· == 2)) 0x3ffff [1, 1] [2] := by
  have hclear : ∀ sizes : List Nat, sizes.sum = 2 → ChunksClear (mt29f8g (· == 2)) 0x3ffff 0 sizes := by
    intro sizes hsum pre n post heq hn b _ hhi
    rw [heq, List.sum_append, List.sum_cons] at hsum
    have hlt : (0x3ffff + (0 + pre.sum)) / (4096 * 64) < 2 := by omega
    have hb : b ≠ 2 := Nat.ne_of_lt (Nat.lt_trans hhi hlt)
    exact beq_false_of_ne hb
  have hfits : [1, 1].sum ≤ room (mt29f8g (· == 2)) 0x3ffff := by decide +kernel
  exact (chunked_transfers_iff (mt29f8g (· == 2)) 0x3ffff [1, 1] [2] rfl).mpr
    ⟨hfits, hclear [1, 1] rfl, hclear [2] rfl⟩

/-- With the first block bad, the second of two bytes goes where one call would have
put a byte long before. -/
theorem chunks_behind_a_bad_block :
    let dev := dataInit (fun _ => 0) (fun _ => 0) (fun _ => 0)
    let one := (dataDoSync (mt29f8g (· == 0)) (dataWrite (mt29f8g (· == 0)) dev 0x3ffff [1, 2]).1).1
    let many := (dataDoSync (mt29f8g (· == 0))
      (writeChunks (mt29f8g (· == 0)) dev 0x3ffff [1, 2] [1, 1]).1).1
    one.chip 0x80000 = 2 ∧ many.chip 0x80000 = 0 ∧ many.chip 0x40000 = 2 := by
  decide +kernel

end Plo.Devices.Nand
