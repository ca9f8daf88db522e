import Plo.Devices.NandCtrlData

/-!
What a page holds: nothing, or data that was programmed to it, as long as no more bits of
a chunk have flipped since than the code corrects. Programming an erased page makes it
hold the data, though some bits have flipped already, and a page that is read gives what
it holds.
-/
namespace Plo.Devices.NandCtrl
variable {nand : Info} (ecc : Ecc nand)

/-- A chunk of data. -/
def chunkOf (nand : Info) (data : List UInt8) (i : Nat) : List UInt8 :=
  (data.drop (i * nand.eccChunksz)).take nand.eccChunksz

/-- A chunk with its parity as it was programmed; nothing was to an erased page. -/
def programmed (content : Option (List UInt8)) (i : Nat) : List UInt8 :=
  match content with
  | none => List.replicate (nand.eccChunksz + nand.chunkEccsz) NAND_ERASED_STATE
  | some data => chunkOf nand data i ++ ecc.encode (chunkOf nand data i)

/-- A chunk with its parity as it is now. -/
def stored (nand : Info) (page : Nat → UInt8) (i : Nat) : List UInt8 :=
  dataChunk nand page i ++ eccChunk nand page i

/-- What the page holds can still be read. -/
structure Holds (page : Nat → UInt8) (content : Option (List UInt8)) : Prop where
  length : ∀ data ∈ content, data.length = nand.writesz
  near : ∀ {i}, i < nand.nchunks →
    distance (programmed ecc content i) (stored nand page i) ≤ nand.eccCap

/-- What is read of a page. -/
def contentBytes (nand : Info) (content : Option (List UInt8)) : List UInt8 :=
  content.getD (List.replicate nand.writesz NAND_ERASED_STATE)

section Layout

theorem Info.nchunks_mul (nand : Info) : nand.nchunks * nand.eccChunksz = nand.writesz :=
  Nat.div_mul_cancel nand.eccChunksz_dvd

theorem Info.eccChunksz_pos (nand : Info) : 0 < nand.eccChunksz := by
  refine Nat.pos_of_ne_zero fun h => ?_
  have hmul := nand.nchunks_mul
  rw [h, Nat.mul_zero] at hmul
  have := nand.writesz_pos
  omega

theorem Info.eccsz_mul (nand : Info) : nand.nchunks * nand.chunkEccsz = nand.eccsz :=
  Nat.mul_div_cancel' nand.eccsz_dvd

theorem Info.tagOfs_eq (nand : Info) :
    nand.tagOfs = nand.writesz + NAND_BBM_SIZE + nand.nchunks * nand.chunkEccsz := by
  rw [Info.tagOfs, nand.sparesz_eq, nand.eccsz_mul]
  omega

/-- The chunks of the data lie side by side in front of the marker. -/
theorem Info.chunk_end (nand : Info) {i : Nat} (h : i < nand.nchunks) :
    i * nand.eccChunksz + nand.eccChunksz ≤ nand.writesz := by
  rw [← Nat.succ_mul, ← nand.nchunks_mul]
  exact Nat.mul_le_mul_right _ h

/-- So do their parities between the marker and the tag. -/
theorem Info.ecc_end (nand : Info) {i : Nat} (h : i < nand.nchunks) :
    nand.eccOffs i + nand.chunkEccsz ≤ nand.tagOfs := by
  have hmul := Nat.mul_le_mul_right nand.chunkEccsz h
  rw [Nat.succ_mul] at hmul
  rw [Info.eccOffs, nand.tagOfs_eq]
  omega

theorem mul_separate {i n : Nat} (h : i < n) (sz : Nat) : i * sz + sz ≤ n * sz := by
  rw [← Nat.succ_mul]
  exact Nat.mul_le_mul_right _ h

theorem length_chunkOf {data : List UInt8} (hlen : data.length = nand.writesz) {i : Nat}
    (h : i < nand.nchunks) : (chunkOf nand data i).length = nand.eccChunksz := by
  have hend := nand.chunk_end h
  rw [chunkOf, List.length_take, List.length_drop]
  omega

@[simp] theorem length_dataChunk (page : Nat → UInt8) (i : Nat) :
    (dataChunk nand page i).length = nand.eccChunksz := length_slice _ _ _

@[simp] theorem length_eccChunk (page : Nat → UInt8) (i : Nat) :
    (eccChunk nand page i).length = nand.chunkEccsz := length_slice _ _ _

end Layout

section Read
variable {ecc} {page : Nat → UInt8} {content : Option (List UInt8)} {f : Faults} {die : Die}

theorem flips_erased (x : UInt8) : flips 0xff x = if x ≠ 0xff then 8 - popcount x else 0 := by
  split
  · have hcount := (List.range 8).length_eq_countP_add_countP fun i => x.toBitVec.getLsbD i
    have hones : ∀ i ∈ List.range 8, (0xff : UInt8).toBitVec.getLsbD i = true := by decide
    have hflips : flips 0xff x = (List.range 8).countP fun i => ¬x.toBitVec.getLsbD i = true := by
      refine List.countP_congr fun i hi => ?_
      rw [hones i hi]
      cases x.toBitVec.getLsbD i <;> decide
    rw [hflips, popcount]
    rw [List.length_range] at hcount
    omega
  · next h => rw [not_not.mp h, flips_self]

/-- The driver counts the bits that are not as in an erased string. -/
theorem countBitflips_eq (data : List UInt8) :
    countBitflips data = distance (List.replicate data.length NAND_ERASED_STATE) data := by
  induction data with
  | nil => rfl
  | cons x data ih =>
      rw [countBitflips, List.map_cons, List.sum_cons, ← countBitflips, ih, ← flips_erased,
        List.length_cons, List.replicate_succ, distance, NAND_ERASED_STATE]

theorem countBitflips_stored (ecc : Ecc nand) (page : Nat → UInt8) (i : Nat) :
    countBitflips (dataChunk nand page i) + countBitflips (eccChunk nand page i) =
      distance (programmed ecc none i) (stored nand page i) := by
  rw [countBitflips_eq, countBitflips_eq, length_dataChunk, length_eccChunk, programmed,
    List.replicate_add, stored, distance_append (by rw [List.length_replicate, length_dataChunk])]

theorem Holds.verifyChunks (h : Holds ecc page none) (n i : Nat) (hn : i + n ≤ nand.nchunks) :
    verifyChunks nand page i n = true := by
  induction n generalizing i with
  | zero => rfl
  | succ n ih =>
      have hnear := h.near (i := i) (by omega)
      rw [NandCtrl.verifyChunks, countBitflips_stored ecc, if_neg (by omega)]
      exact ih (i + 1) (by omega)

theorem Holds.correctedData {data : List UInt8} (h : Holds ecc page (some data)) (n i : Nat)
    (hn : i + n ≤ nand.nchunks) : correctedPage ecc page i n =
      some ((data.drop (i * nand.eccChunksz)).take (n * nand.eccChunksz)) := by
  induction n generalizing i with
  | zero => simp [correctedPage]
  | succ n ih =>
      have hlen := length_chunkOf (h.length data rfl) (i := i) (by omega)
      have hdecode : ecc.decode (dataChunk nand page i) (eccChunk nand page i) =
          some (chunkOf nand data i) :=
        ecc.corrects hlen (length_dataChunk _ _) (length_eccChunk _ _) (h.near (by omega))
      rw [correctedPage, hdecode]
      simp only
      rw [ih (i + 1) (by omega), Option.map_some, chunkOf, Nat.succ_mul, Nat.succ_mul,
        Nat.add_comm (n * _), ← List.drop_drop, ← List.take_add]

theorem Holds.correctedErased (h : Holds ecc page none) (n i : Nat) (hn : i + n ≤ nand.nchunks)
    {data : List UInt8} (hsome : correctedPage ecc page i n = some data) :
    data = List.replicate (n * nand.eccChunksz) NAND_ERASED_STATE := by
  induction n generalizing i data with
  | zero =>
      rw [correctedPage, Option.some.injEq] at hsome
      rw [← hsome, Nat.zero_mul]
      rfl
  | succ n ih =>
      rw [correctedPage] at hsome
      split at hsome
      · cases hsome
      · next chunk hdecode =>
        obtain ⟨rest, hrest, rfl⟩ := Option.map_eq_some_iff.mp hsome
        rw [ih (i + 1) (by omega) hrest,
          ecc.erased (length_dataChunk _ _) (length_eccChunk _ _) (h.near (by omega)) hdecode,
          Nat.succ_mul, Nat.add_comm, List.replicate_add]

/-- A page that is read gives what it holds, or an error. -/
theorem Holds.pageRead {row : Nat} (h : Holds ecc (die.chip row) content) {data : List UInt8}
    (hread : (NandCtrl.pageRead ecc f die row).2 = .ok data) : data = contentBytes nand content := by
  rw [NandCtrl.pageRead] at hread
  split at hread
  · cases hread
  · cases content with
    | some stored =>
        rw [h.correctedData _ 0 (Nat.zero_add _).le] at hread
        simp only [Except.ok.injEq] at hread
        rw [← hread, nand.nchunks_mul, Nat.zero_mul, List.drop_zero,
          List.take_of_length_le (h.length _ rfl).le]
        rfl
    | none =>
        split at hread
        · next corrected hsome =>
          rw [← Except.ok.inj hread, h.correctedErased _ 0 (Nat.zero_add _).le hsome,
            nand.nchunks_mul]
          rfl
        · simp only [verifyEccError, rawRead] at hread
          split at hread
          · cases hread
          · split at hread
            · exact (Except.ok.inj hread).symm
            · cases hread

/-- When the controller does not fail, there is no error. -/
theorem Holds.pageRead_ok {row : Nat} (h : Holds ecc (die.chip row) content)
    (hclean : ∀ t, f t = .done) :
    (NandCtrl.pageRead ecc f die row).2 = .ok (contentBytes nand content) := by
  have hok : ∃ data, (NandCtrl.pageRead ecc f die row).2 = .ok data := by
    rw [NandCtrl.pageRead, hclean, if_neg (by simp [Outcome.runErr])]
    split
    · next data _ => exact ⟨data, rfl⟩
    · next hnone =>
      cases content with
      | some data =>
          rw [h.correctedData _ 0 (Nat.zero_add _).le] at hnone
          cases hnone
      | none =>
          have hverify := h.verifyChunks _ 0 (Nat.zero_add _).le
          simp only [verifyEccError, rawRead, hclean, Outcome.runErr, lt_irrefl, if_false]
          rw [show (tick die).chip = die.chip from rfl, if_pos hverify]
          exact ⟨_, rfl⟩
  obtain ⟨data, hdata⟩ := hok
  rw [hdata, h.pageRead hdata]

end Read

section Write
variable {ecc} {page reg : Nat → UInt8}

theorem slice_and (page reg : Nat → UInt8) (src n : Nat) :
    slice (fun col => page col &&& reg col) src n =
      List.zipWith (· &&& ·) (slice page src n) (slice reg src n) := by
  simp only [slice, List.zipWith_map, List.zipWith_self]

theorem stored_and (page reg : Nat → UInt8) (i : Nat) :
    stored nand (fun col => page col &&& reg col) i =
      List.zipWith (· &&& ·) (stored nand page i) (stored nand reg i) := by
  rw [stored, dataChunk, eccChunk, slice_and, slice_and, stored, stored,
    List.zipWith_append (by rw [length_dataChunk, length_dataChunk]), dataChunk, dataChunk, eccChunk,
    eccChunk]

theorem erased_and_list {n : Nat} {xs : List UInt8} (h : xs.length = n) :
    List.zipWith (· &&& ·) (List.replicate n NAND_ERASED_STATE) xs = xs := by
  induction xs generalizing n with
  | nil => simp
  | cons x xs ih =>
      cases n with
      | zero => cases h
      | succ n =>
          rw [List.replicate_succ, List.zipWith_cons_cons, ih (Nat.succ.inj h)]
          congr 1
          exact UInt8.neg_one_and

@[simp] theorem length_stored (page : Nat → UInt8) (i : Nat) :
    (stored nand page i).length = nand.eccChunksz + nand.chunkEccsz := by
  rw [stored, List.length_append, length_dataChunk, length_eccChunk]

/-- An erased page takes what is programmed to it, and no more bits are wrong than before. -/
theorem Holds.program (h : Holds ecc page none) {data : List UInt8}
    (hlen : data.length = nand.writesz)
    (hreg : ∀ i, i < nand.nchunks → stored nand reg i = programmed ecc (some data) i) :
    Holds ecc (fun col => page col &&& reg col) (some data) where
  length := by
    intro data' hdata'
    cases hdata'
    exact hlen
  near := by
    intro i hi
    have hnear := h.near hi
    have hprogrammed : programmed ecc (some data) i = List.zipWith (· &&& ·)
        (programmed ecc none i) (stored nand reg i) := by
      rw [← hreg i hi]
      exact (erased_and_list (length_stored reg i)).symm
    rw [hprogrammed, stored_and]
    exact distance_and_le.trans hnear

/-- The page register with the first `n` chunks put in. -/
structure Loaded (ecc : Ecc nand) (data : List UInt8) (n : Nat) (reg : Nat → UInt8) : Prop where
  chunks : ∀ i, i < n → stored nand reg i = programmed ecc (some data) i
  marker : reg nand.writesz = NAND_ERASED_STATE

theorem slice_overlay_apart {mem : Nat → UInt8} {dst src n : Nat} {xs : List UInt8}
    (h : src + n ≤ dst ∨ dst + xs.length ≤ src) : slice (overlay mem dst xs) src n = slice mem src n := by
  refine slice_eq_iff.mpr fun k hk => ?_
  cases h with
  | inl hbelow => exact overlay_of_lt _ _ _ (by omega)
  | inr habove => exact overlay_of_ge _ _ _ (by omega)

theorem Loaded.put {data : List UInt8} (hlen : data.length = nand.writesz) {n : Nat}
    (hn : n < nand.nchunks) (h : Loaded ecc data n reg) :
    Loaded ecc data (n + 1)
      (Load.put ecc reg ⟨n * nand.eccChunksz, chunkOf nand data n, true⟩) := by
  have hchunk := length_chunkOf hlen hn
  have hparity := ecc.length_encode hchunk
  have hend := nand.chunk_end hn
  have hdiv : n * nand.eccChunksz / nand.eccChunksz = n := Nat.mul_div_cancel _ nand.eccChunksz_pos
  have hmarker : NAND_BBM_SIZE = 2 := rfl
  simp only [Load.put, if_true, hdiv]
  refine ⟨fun i hi => ?_, ?_⟩
  · rw [stored, dataChunk, eccChunk]
    have hofs : nand.writesz + 2 ≤ nand.eccOffs i ∧ nand.writesz + 2 ≤ nand.eccOffs n := by
      rw [Info.eccOffs, Info.eccOffs]
      omega
    have hdata : slice (overlay (overlay reg (n * nand.eccChunksz) (chunkOf nand data n))
        (nand.eccOffs n) (ecc.encode (chunkOf nand data n))) (i * nand.eccChunksz) nand.eccChunksz =
        slice (overlay reg (n * nand.eccChunksz) (chunkOf nand data n)) (i * nand.eccChunksz)
          nand.eccChunksz := by
      have hiend := nand.chunk_end (i := i) (by omega)
      exact slice_overlay_apart (Or.inl (by omega))
    rw [hdata]
    by_cases heq : i = n
    · rw [heq, programmed]
      congr 1
      · have hslice := slice_overlay reg (n * nand.eccChunksz) (chunkOf nand data n)
        rwa [hchunk] at hslice
      · have hslice := slice_overlay (overlay reg (n * nand.eccChunksz) (chunkOf nand data n))
          (nand.eccOffs n) (ecc.encode (chunkOf nand data n))
        rwa [hparity] at hslice
    · have hlt : i < n := by omega
      have hsep := mul_separate hlt nand.eccChunksz
      have hsep' := mul_separate hlt nand.chunkEccsz
      rw [slice_overlay_apart (Or.inl hsep), slice_overlay_apart (Or.inl (by
        rw [Info.eccOffs, Info.eccOffs]
        omega)), slice_overlay_apart (Or.inr (by omega))]
      exact h.chunks i hlt
  · rw [overlay_of_lt _ _ _ (by rw [Info.eccOffs]; omega), overlay_of_ge _ _ _ (by omega)]
    exact h.marker

theorem loaded_chunks (ecc : Ecc nand) {data : List UInt8} (hlen : data.length = nand.writesz) (n : Nat)
    (hn : n ≤ nand.nchunks) : Loaded ecc data n
      (register ecc ((List.range n).map fun i =>
        ⟨i * nand.eccChunksz, chunkOf nand data i, true⟩)) := by
  induction n with
  | zero => exact ⟨fun i hi => absurd hi (Nat.not_lt_zero i), rfl⟩
  | succ n ih =>
      rw [register, List.range_succ, List.map_append, List.foldl_append]
      exact (ih (by omega)).put hlen (by omega)

/-- What `nandfctrl2_pageWrite` loads is the data with its parity; the marker stays. -/
theorem loaded_pageWrite {data : List UInt8} (hlen : data.length = nand.writesz) :
    Loaded ecc data nand.nchunks (register ecc (pageWriteLoads nand data)) := by
  have h := loaded_chunks ecc hlen nand.nchunks le_rfl
  have hlt : nand.writesz < nand.tagOfs := by
    rw [nand.tagOfs_eq, NAND_BBM_SIZE]
    omega
  rw [register, pageWriteLoads, List.foldl_append]
  refine ⟨fun i hi => ?_, ?_⟩
  · have hend := nand.ecc_end hi
    have hiend := nand.chunk_end hi
    rw [← h.chunks i hi, stored, stored, dataChunk, dataChunk, eccChunk, eccChunk]
    congr 1
    · exact slice_overlay_apart (Or.inl (hiend.trans hlt.le))
    · exact slice_overlay_apart (Or.inl hend)
  · exact (overlay_of_lt _ _ _ hlt).trans h.marker

end Write

end Plo.Devices.NandCtrl
