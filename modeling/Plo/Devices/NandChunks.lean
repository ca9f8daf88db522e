import Plo.Devices.NandContent

/-!
Writing and reading in several calls. A call puts the logical block of its offset
into the first good block from there on, whatever blocks an earlier call skipped;
so calls agree with one call for all exactly when no bad block lies between the
first block and the one where a call starts.
-/
namespace Plo.Devices.Nand

section Calls
variable {nand : NandInfo} {dev : NandDev}

/-- The number of bytes from an offset to the end of the good blocks. -/
def room (nand : NandInfo) (offs : Nat) : Nat :=
  capacity nand (offs / nand.erasesz) - offs % nand.erasesz

theorem room_le (nand : NandInfo) (offs : Nat) : room nand offs ≤ nand.size - offs := by
  have hcap := capacity_le nand (offs / nand.erasesz)
  have hoffs := Nat.div_add_mod offs nand.erasesz
  rw [Nat.mul_comm] at hoffs
  rw [room]
  omega

/-- What one call writes. -/
theorem Coherent.dataWrite (h : Coherent nand dev) (offs : Nat) (data : List UInt8) :
    Coherent nand (dataWrite nand dev offs data).1 ∧
      (Nand.dataWrite nand dev offs data).1.content nand =
        scatter (place nand (offs / nand.erasesz)) (dev.content nand) (offs % nand.erasesz)
          (data.take (room nand offs)) ∧
      (Nand.dataWrite nand dev offs data).2 =
        if offs < nand.size then ((min data.length (room nand offs) : Nat) : Int) else - EINVAL := by
  have hroom := room_le nand offs
  rw [Nand.dataWrite]
  by_cases hoffs : nand.size ≤ offs
  · have hzero : room nand offs = 0 := by omega
    rw [if_pos hoffs, if_neg (Nat.not_lt.mpr hoffs), hzero, List.take_zero]
    exact ⟨h, rfl, rfl⟩
  · rw [if_neg hoffs, if_pos (Nat.lt_of_not_le hoffs)]
    by_cases hdata : data = []
    · simp only [hdata, List.take_nil, if_true, List.length_nil, Nat.zero_min]
      exact ⟨h, rfl, rfl⟩
    · have hpos := List.length_pos_iff.mpr hdata
      have hne : data.take (nand.size - offs) ≠ [] :=
        List.ne_nil_of_length_pos (by rw [List.length_take]; omega)
      have hcoh : Coherent nand { dev with rnand := false } :=
        ⟨h.wblock, fun hr => absurd hr Bool.false_ne_true⟩
      obtain ⟨dev', hloop, hcoh', hcontent⟩ := hcoh.writeLoop nand.nblocks rfl
        (offs / nand.erasesz) (data.take (nand.size - offs)) 0 (Nat.le_add_left _ _)
        (Nat.mod_lt offs nand.erasesz_pos)
      rw [if_neg hne, hloop]
      refine ⟨hcoh', ?_, ?_⟩
      · rw [hcontent, ← room, List.take_take, Nat.min_eq_left hroom]
        rfl
      · rw [List.length_take, Nat.zero_add, ← room]
        omega

/-- What one call reads. -/
theorem Coherent.dataRead (h : Coherent nand dev) (offs len : Nat) :
    Coherent nand (dataRead nand dev offs len).1 ∧
      SameContent dev (Nand.dataRead nand dev offs len).1 ∧
      (Nand.dataRead nand dev offs len).2.1 =
        gather (place nand (offs / nand.erasesz)) (dev.content nand) (offs % nand.erasesz)
          (min len (room nand offs)) ∧
      (Nand.dataRead nand dev offs len).2.2 =
        if offs < nand.size then ((min len (room nand offs) : Nat) : Int) else - EINVAL := by
  have hroom := room_le nand offs
  rw [Nand.dataRead]
  by_cases hoffs : nand.size ≤ offs
  · have hzero : room nand offs = 0 := by omega
    rw [if_pos hoffs, if_neg (Nat.not_lt.mpr hoffs), hzero, Nat.min_zero]
    exact ⟨h, ⟨rfl, rfl, rfl, rfl⟩, rfl, rfl⟩
  · obtain ⟨dev', hloop, hcoh, hsame⟩ := h.readLoop nand.nblocks (offs / nand.erasesz)
      (min len (nand.size - offs)) (Nat.le_add_left _ _) (Nat.mod_lt offs nand.erasesz_pos)
    have hmin : min (min len (nand.size - offs)) (room nand offs) = min len (room nand offs) := by
      omega
    rw [← room, hmin] at hloop
    simp only [if_neg hoffs, if_pos (Nat.lt_of_not_le hoffs), hloop, length_gather]
    exact ⟨hcoh, hsame, trivial, trivial⟩

end Calls

section Shift
variable {nand : NandInfo}

/-- The good blocks from a block on are those before another block and those from
it on. The former are as many as there are blocks when none is bad. -/
theorem goods_split (block j : Nat) (h : block + j ≤ nand.nblocks) :
    ∃ pre, goods nand block = pre ++ goods nand (block + j) ∧ pre.length ≤ j ∧
      ((∀ b, block ≤ b → b < block + j → nand.bad b = false) ↔ pre.length = j) := by
  induction j generalizing block with
  | zero =>
      refine ⟨[], rfl, Nat.le_refl 0, fun _ => rfl, fun _ b hlo hhi => ?_⟩
      omega
  | succ j ih =>
      obtain ⟨pre, hgoods, hle, hclear⟩ := ih (block + 1) (by omega)
      have hsum : block + 1 + j = block + (j + 1) := by omega
      rw [hsum] at hgoods
      rw [goods_succ (by omega), hgoods]
      cases hbad : nand.bad block with
      | true =>
          refine ⟨pre, rfl, by omega, fun hall => ?_, fun heq => by omega⟩
          have hfirst := hall block (Nat.le_refl _) (by omega)
          exact absurd (hfirst.symm.trans hbad) Bool.false_ne_true
      | false =>
          refine ⟨block :: pre, rfl, by rw [List.length_cons]; omega, ?_⟩
          rw [List.length_cons, Nat.succ_inj, ← hclear]
          constructor
          · exact fun hall b hlo hhi => hall b (by omega) (by omega)
          · intro hall b hlo hhi
            cases Nat.eq_or_lt_of_le hlo with
            | inl heq => rw [← heq]; exact hbad
            | inr hlt => exact hall b hlt (by omega)

/-- No block is bad between the block of an offset and the one `l` bytes on. -/
def Clear (nand : NandInfo) (offs l : Nat) : Prop :=
  ∀ b, offs / nand.erasesz ≤ b → b < (offs + l) / nand.erasesz → nand.bad b = false

/-- The places of a call that starts `l` bytes on are places of a call that starts
at the offset: the ones `l` bytes on if no block between is bad, else earlier ones. -/
theorem place_shift {offs l : Nat} (h : (offs + l) / nand.erasesz ≤ nand.nblocks) :
    ∃ q, q ≤ offs % nand.erasesz + l ∧ (Clear nand offs l ↔ q = offs % nand.erasesz + l) ∧
      (∀ k, place nand ((offs + l) / nand.erasesz) ((offs + l) % nand.erasesz + k) =
        place nand (offs / nand.erasesz) (q + k)) ∧
      room nand (offs + l) = capacity nand (offs / nand.erasesz) - q := by
  have hpos := nand.erasesz_pos
  have hle : offs / nand.erasesz ≤ (offs + l) / nand.erasesz := Nat.div_le_div_right (by omega)
  obtain ⟨j, hj⟩ := Nat.exists_eq_add_of_le hle
  rw [hj] at h
  obtain ⟨pre, hgoods, hlen, hclear⟩ := goods_split (offs / nand.erasesz) j h
  have hoffs := Nat.div_add_mod offs nand.erasesz
  have hend := Nat.div_add_mod (offs + l) nand.erasesz
  have hmul := Nat.mul_le_mul_right nand.erasesz hlen
  rw [hj, Nat.mul_add, Nat.mul_comm nand.erasesz j] at hend
  have hcap : capacity nand (offs / nand.erasesz) =
      pre.length * nand.erasesz + capacity nand (offs / nand.erasesz + j) := by
    rw [capacity, hgoods, List.length_append, Nat.add_mul, capacity]
  refine ⟨pre.length * nand.erasesz + (offs + l) % nand.erasesz, by omega, ?_, fun k => ?_, ?_⟩
  · rw [Clear, hj, hclear]
    constructor
    · intro heq
      rw [heq]
      omega
    · intro heq
      exact Nat.eq_of_mul_eq_mul_right hpos (by omega)
  · rw [hj, place, place, hgoods, Nat.add_assoc (pre.length * nand.erasesz),
      Nat.mul_add_mod_self_right, Nat.mul_comm pre.length, Nat.mul_add_div hpos]
    generalize ((offs + l) % nand.erasesz + k) / nand.erasesz = i
    rw [List.getD_append_right _ _ _ _ (Nat.le_add_right _ _), Nat.add_sub_cancel_left]
  · rw [room, hj, hcap]
    omega

/-- Where a call starts that is not empty, no bad block was passed since the offset,
`l` bytes before the first call. -/
def ChunksClear (nand : NandInfo) (offs l : Nat) (sizes : List Nat) : Prop :=
  ∀ pre n post, sizes = pre ++ n :: post → n ≠ 0 → Clear nand offs (l + pre.sum)

theorem ChunksClear.tail {offs l n : Nat} {sizes : List Nat}
    (h : ChunksClear nand offs l (n :: sizes)) : ChunksClear nand offs (l + n) sizes := by
  intro pre m post heq hm
  have hclear := h (n :: pre) m post (by rw [heq]; rfl) hm
  rw [List.sum_cons, ← Nat.add_assoc] at hclear
  exact hclear

theorem ChunksClear.head {offs l n : Nat} {sizes : List Nat}
    (h : ChunksClear nand offs l (n :: sizes)) (hn : n ≠ 0) : Clear nand offs l :=
  h [] n sizes rfl hn

/-- The first call that passes a bad block. -/
theorem exists_first_unclear {offs l : Nat} {sizes : List Nat} (h : ¬ChunksClear nand offs l sizes) :
    ∃ pre n post, sizes = pre ++ n :: post ∧ n ≠ 0 ∧ ¬Clear nand offs (l + pre.sum) ∧
      ChunksClear nand offs l pre := by
  induction sizes generalizing l with
  | nil =>
      refine absurd (fun pre n post heq => ?_) h
      exact absurd heq (by simp)
  | cons m sizes ih =>
      by_cases hhead : m ≠ 0 ∧ ¬Clear nand offs l
      · refine ⟨[], m, sizes, rfl, hhead.1, hhead.2, fun pre n post heq => ?_⟩
        exact absurd heq (by simp)
      · have htail : ¬ChunksClear nand offs (l + m) sizes := by
          intro htail
          refine h fun pre n post heq hn => ?_
          cases pre with
          | nil =>
              injection heq with hm _
              by_contra hclear
              exact hhead ⟨by rw [hm]; exact hn, hclear⟩
          | cons k pre =>
              injection heq with hm hsizes
              have hclear := htail pre n post hsizes hn
              rw [List.sum_cons, ← hm, ← Nat.add_assoc]
              exact hclear
        obtain ⟨pre, n, post, heq, hn, hclear, hpre⟩ := ih htail
        refine ⟨m :: pre, n, post, by rw [heq]; rfl, hn, ?_, ?_⟩
        · rw [List.sum_cons, ← Nat.add_assoc]
          exact hclear
        · intro pre' n' post' heq' hn'
          cases pre' with
          | nil =>
              injection heq' with hm _
              by_contra hclear'
              exact hhead ⟨by rw [hm]; exact hn', hclear'⟩
          | cons k pre' =>
              injection heq' with hm hpre'
              have hclear' := hpre pre' n' post' hpre' hn'
              rw [List.sum_cons, ← hm, ← Nat.add_assoc]
              exact hclear'

end Shift

section Chunks
variable {nand : NandInfo} {dev : NandDev} {offs : Nat}

/-- Where a call starts while there is room left, and no bad block was passed, it
starts in the place that one call would have reached. -/
theorem Clear.place {l : Nat} (hlt : offs + l < nand.size) (h : Clear nand offs l) :
    (∀ k, place nand ((offs + l) / nand.erasesz) ((offs + l) % nand.erasesz + k) =
        place nand (offs / nand.erasesz) (offs % nand.erasesz + l + k)) ∧
      room nand (offs + l) = room nand offs - l := by
  have hblock : (offs + l) / nand.erasesz ≤ nand.nblocks := Nat.div_le_div_right (Nat.le_of_lt hlt)
  obtain ⟨q, _, hclear, hplace, hroom⟩ := place_shift hblock
  rw [hclear.mp h] at hplace hroom
  exact ⟨hplace, by rw [hroom, room]; omega⟩

theorem Coherent.writeChunk (h : Coherent nand dev) {l n : Nat} (data : List UInt8)
    (hlt : offs + l < nand.size) (hclear : n ≠ 0 → Clear nand offs l) (hlen : n ≤ data.length)
    (hroom : l + n ≤ room nand offs) :
    (Nand.dataWrite nand dev (offs + l) (data.take n)).2 = n ∧
      Coherent nand (Nand.dataWrite nand dev (offs + l) (data.take n)).1 ∧
      (Nand.dataWrite nand dev (offs + l) (data.take n)).1.content nand =
        scatter (Nand.place nand (offs / nand.erasesz)) (dev.content nand) (offs % nand.erasesz + l)
          (data.take n) := by
  obtain ⟨hcoh, hcontent, hret⟩ := h.dataWrite (offs + l) (data.take n)
  have htake : (data.take n).length = n := List.length_take_of_le hlen
  rw [if_pos hlt, htake] at hret
  by_cases hn : n = 0
  · rw [hn, List.take_zero, List.take_nil] at hcontent
    rw [hn, List.take_zero, Nat.zero_min] at hret
    rw [hn, List.take_zero] at hcoh ⊢
    exact ⟨hret, hcoh, hcontent⟩
  · obtain ⟨hplace, hrest⟩ := (hclear hn).place hlt
    have hle : n ≤ room nand (offs + l) := by omega
    rw [Nat.min_eq_left hle] at hret
    have hall : (data.take n).take (room nand (offs + l)) = data.take n :=
      List.take_of_length_le (by rw [htake]; exact hle)
    rw [hall] at hcontent
    exact ⟨hret, hcoh, hcontent.trans (scatter_congr _ fun k _ => hplace k)⟩

/-- Calls that pass no bad block write as one call does, up to calls that follow. -/
theorem Coherent.writeChunks (sizes rest : List Nat) (h : Coherent nand dev) {l : Nat}
    (data : List UInt8) (hclear : ChunksClear nand offs l sizes) (hlen : sizes.sum ≤ data.length)
    (hroom : l + sizes.sum ≤ room nand offs)
    (hrest : rest = [] ∨ l + sizes.sum < room nand offs) :
    ∃ dev', (Nand.writeChunks nand dev (offs + l) data (sizes ++ rest)).1 =
        (Nand.writeChunks nand dev' (offs + (l + sizes.sum)) (data.drop sizes.sum) rest).1 ∧
      Coherent nand dev' ∧
      dev'.content nand = scatter (place nand (offs / nand.erasesz)) (dev.content nand)
        (offs % nand.erasesz + l) (data.take sizes.sum) := by
  induction sizes generalizing dev l data with
  | nil => exact ⟨dev, rfl, h, rfl⟩
  | cons n sizes ih =>
      have hsize := room_le nand offs
      rw [List.sum_cons] at hlen hroom hrest
      by_cases hlt : offs + l < nand.size
      · obtain ⟨hret, hcoh, hcontent⟩ := h.writeChunk (n := n) data hlt
          (fun hn => hclear.head hn) (by omega) (by omega)
        obtain ⟨dev', hchunks, hcoh', hcontent'⟩ := ih hcoh (data.drop n)
          hclear.tail (by rw [List.length_drop]; omega) (by omega)
          (hrest.imp_right fun hlt => by omega)
        refine ⟨dev', ?_, hcoh', ?_⟩
        · rw [List.cons_append, Nand.writeChunks, hret, if_neg (by omega), Int.toNat_natCast,
            Nat.add_assoc, hchunks, List.drop_drop, List.sum_cons, ← Nat.add_assoc l]
        · rw [hcontent', hcontent, List.sum_cons, List.take_add, scatter_append,
            List.length_take_of_le (by omega), Nat.add_assoc]
      · -- there is no room left, so that nothing is left to be written
        have hzero : n + sizes.sum = 0 := by omega
        have hnil : rest = [] := hrest.resolve_right (by omega)
        obtain ⟨hcoh, hcontent, hret⟩ := h.dataWrite (offs + l) (data.take n)
        rw [if_neg hlt] at hret
        have hn : n = 0 := by omega
        refine ⟨(Nand.dataWrite nand dev (offs + l) (data.take n)).1, ?_, hcoh, ?_⟩
        · rw [List.cons_append, Nand.writeChunks, hret, if_pos (by decide), hnil]
          rfl
        · rw [hcontent, List.sum_cons, hzero, hn, List.take_zero, List.take_nil]
          rfl

theorem Coherent.readChunk (h : Coherent nand dev) {l n : Nat} (hlt : offs + l < nand.size)
    (hclear : n ≠ 0 → Clear nand offs l) (hroom : l + n ≤ room nand offs) :
    (Nand.dataRead nand dev (offs + l) n).2.1 =
        gather (Nand.place nand (offs / nand.erasesz)) (dev.content nand) (offs % nand.erasesz + l) n ∧
      (Nand.dataRead nand dev (offs + l) n).2.2 = n ∧
      Coherent nand (Nand.dataRead nand dev (offs + l) n).1 ∧
      (Nand.dataRead nand dev (offs + l) n).1.content nand = dev.content nand := by
  obtain ⟨hcoh, hsame, hdata, hret⟩ := h.dataRead (offs + l) n
  rw [if_pos hlt] at hret
  by_cases hn : n = 0
  · rw [hn, Nat.zero_min] at hdata hret
    rw [hn] at hcoh hsame ⊢
    exact ⟨hdata, hret, hcoh, hsame.content⟩
  · obtain ⟨hplace, hrest⟩ := (hclear hn).place hlt
    rw [Nat.min_eq_left (by omega)] at hdata hret
    exact ⟨hdata.trans (gather_congr fun k _ => hplace k), hret, hcoh, hsame.content⟩

/-- Calls that pass no bad block read as one call does, up to calls that follow. -/
theorem Coherent.readChunks (sizes rest : List Nat) (h : Coherent nand dev) {l : Nat}
    (hclear : ChunksClear nand offs l sizes) (hroom : l + sizes.sum ≤ room nand offs)
    (hrest : rest = [] ∨ l + sizes.sum < room nand offs) :
    ∃ dev', (Nand.readChunks nand dev (offs + l) (sizes ++ rest)).2 =
        gather (place nand (offs / nand.erasesz)) (dev.content nand) (offs % nand.erasesz + l)
          sizes.sum ++ (Nand.readChunks nand dev' (offs + (l + sizes.sum)) rest).2 ∧
      Coherent nand dev' ∧ dev'.content nand = dev.content nand := by
  induction sizes generalizing dev l with
  | nil => exact ⟨dev, rfl, h, rfl⟩
  | cons n sizes ih =>
      have hsize := room_le nand offs
      rw [List.sum_cons] at hroom hrest
      by_cases hlt : offs + l < nand.size
      · obtain ⟨hdata, hret, hcoh, hcontent⟩ := h.readChunk (n := n) hlt (fun hn => hclear.head hn)
          (by omega)
        obtain ⟨dev', hchunks, hcoh', hcontent'⟩ := ih hcoh hclear.tail (by omega)
          (hrest.imp_right fun hlt => by omega)
        refine ⟨dev', ?_, hcoh', hcontent'.trans hcontent⟩
        rw [List.cons_append, Nand.readChunks, hret, if_neg (by omega), hdata, length_gather,
          Nat.add_assoc]
        simp only [hchunks, hcontent, List.sum_cons, gather_add, List.append_assoc, Nat.add_assoc]
      · have hzero : n + sizes.sum = 0 := by omega
        have hnil : rest = [] := hrest.resolve_right (by omega)
        obtain ⟨hcoh, hsame, hdata, hret⟩ := h.dataRead (offs + l) n
        rw [if_neg hlt] at hret
        refine ⟨dev, ?_, h, rfl⟩
        rw [List.cons_append, Nand.readChunks, hret, if_pos (by decide), List.sum_cons, hzero, hnil]
        rfl

end Chunks

end Plo.Devices.Nand
