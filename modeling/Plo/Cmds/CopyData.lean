import Mathlib.Algebra.BigOperators.Group.List.Basic
import Plo.Cmds.Copy

/-!
What the copy command stores. Every write of a chunk is given the buffer from its start
on: a chunk that takes more than one write arrives damaged, and the copy is right
whatever the source holds exactly when every chunk takes one write.
-/
namespace Plo.Cmds
variable {w : Nat}

/-- A turn whose read gives what its writes take together. -/
def wholeTurn (lens : List Nat) : Turn := ⟨.ok lens.sum, lens.map .ok⟩

theorem wholeTurn_injective : Function.Injective wholeTurn := by
  intro lens lens' h
  have hwrites : lens.map (Except.ok : Nat → Answer) = lens'.map Except.ok :=
    congrArg Turn.writes h
  exact List.map_injective_iff.mpr (fun a b hab => Except.ok.inj hab) hwrites

/-- What the writes of a chunk store one after the other. -/
def storedBytes (buff : List UInt8) (lens : List Nat) : List UInt8 := lens.flatMap buff.take

theorem storedBytes_cons (buff : List UInt8) (len : Nat) (lens : List Nat) :
    storedBytes buff (len :: lens) = buff.take len ++ storedBytes buff lens := rfl

theorem length_storedBytes {buff : List UInt8} {lens : List Nat} (h : lens.sum ≤ buff.length) :
    (storedBytes buff lens).length = lens.sum := by
  induction lens with
  | nil => rfl
  | cons len lens ih =>
      rw [List.sum_cons] at h ⊢
      rw [storedBytes_cons, List.length_append, List.length_take, ih (by omega)]
      omega

/-- The loop over the writes, when it leaves no error. -/
theorem writeChunk_spec {dstAddr : BitVec w} {buff : List UInt8} {chunk : Nat} {res : Int}
    {wsz : BitVec w} {mem : Nat → UInt8} {writes : List Answer} {v : Int}
    (hbuff : chunk ≤ buff.length) (hfit : WritesFit chunk writes)
    (h : (writeChunk dstAddr buff chunk res wsz mem writes).res = some v) (hv : 0 ≤ v) :
    ∃ lens : List Nat, writes = lens.map .ok ∧ lens.sum = chunk ∧ (∀ len ∈ lens, 0 < len) ∧
      (writeChunk dstAddr buff chunk res wsz mem writes).wsz = wsz + BitVec.ofNat w chunk ∧
      (writeChunk dstAddr buff chunk res wsz mem writes).mem =
        ringWrite (2 ^ w) mem (dstAddr + wsz).toNat (storedBytes buff lens) ∧
      (if chunk = 0 then v = res else 0 < v) := by
  induction writes generalizing chunk res wsz mem with
  | nil =>
      cases chunk with
      | zero =>
          cases h
          exact ⟨[], rfl, rfl, nofun, by simp [writeChunk], rfl, rfl⟩
      | succ chunk => cases h
  | cons answer writes ih =>
      cases chunk with
      | zero => cases hfit
      | succ chunk =>
          cases answer with
          | error res =>
              cases h
              exact absurd hfit (Int.not_lt.mpr hv)
          | ok len =>
              obtain ⟨hpos, hle, hfit⟩ := hfit
              obtain ⟨lens, hwrites, hsum, hlens, hwsz, hmem, hres⟩ := ih (by omega) hfit h
              refine ⟨len :: lens, by rw [hwrites]; rfl, ?_, ?_, ?_, ?_, ?_⟩
              · rw [List.sum_cons]
                omega
              · rintro l (_ | ⟨_, hl⟩)
                · exact hpos
                · exact hlens l hl
              · rw [writeChunk, hwsz, BitVec.add_assoc, ← BitVec.ofNat_add]
                congr 2
                omega
              · rw [writeChunk, hmem, storedBytes_cons, ringWrite_append, List.length_take,
                  Nat.min_eq_left (by omega), ← BitVec.add_assoc, toNat_add_ofNat, ringWrite_mod]
              · rw [if_neg (Nat.succ_ne_zero chunk)]
                split at hres
                · rw [hres]
                  exact Int.natCast_pos.mpr hpos
                · exact hres

/-- How much the chunks hold together. -/
def total (chunks : List (List Nat)) : Nat := (chunks.map List.sum).sum

/-- What is stored of chunks that lie in the source from `pos` on. -/
def chunkBytes (w : Nat) (src : Nat → UInt8) : Nat → List (List Nat) → List UInt8
  | _, [] => []
  | pos, lens :: chunks =>
    storedBytes (window (2 ^ w) src pos lens.sum) lens ++ chunkBytes w src (pos + lens.sum) chunks

theorem total_cons (lens : List Nat) (chunks : List (List Nat)) :
    total (lens :: chunks) = lens.sum + total chunks := by
  rw [total, List.map_cons, List.sum_cons, total]

theorem length_chunkBytes (src : Nat → UInt8) (pos : Nat) (chunks : List (List Nat)) :
    (chunkBytes w src pos chunks).length = total chunks := by
  induction chunks generalizing pos with
  | nil => rfl
  | cons lens chunks ih =>
      rw [chunkBytes, List.length_append, length_storedBytes (by simp), ih, total_cons]

theorem chunkBytes_mod (src : Nat → UInt8) (pos : Nat) (chunks : List (List Nat)) :
    chunkBytes w src (pos % 2 ^ w) chunks = chunkBytes w src pos chunks := by
  induction chunks generalizing pos with
  | nil => rfl
  | cons lens chunks ih =>
      rw [chunkBytes, chunkBytes, window_mod, ← ih (pos % 2 ^ w + lens.sum), Nat.mod_add_mod, ih]

theorem toInt_of_nonneg {x : BitVec w} (h : 0 ≤ x.toInt) : x.toInt = x.toNat := by
  rw [BitVec.toInt_eq_toNat_cond] at h ⊢
  split
  · rfl
  · have := x.isLt
    omega

theorem sub_pos_iff {sz rsz : BitVec w} (hle : rsz.toNat ≤ sz.toNat) :
    sz - rsz > 0 ↔ rsz.toNat < sz.toNat := by
  have hsub : (sz - rsz).toNat = sz.toNat - rsz.toNat := BitVec.toNat_sub_of_le hle
  have hzero : (0 : BitVec w).toNat = 0 := BitVec.toNat_zero
  rw [gt_iff_lt, BitVec.lt_def, hsub, hzero]
  omega

/-- A turn of a call that returns `n ≥ 0`. -/
theorem copyTurns_step {src mem : Nat → UInt8} {srcAddr dstAddr sz rsz wsz : BitVec w} {len : Nat}
    {writes : List Answer} {turns : List Turn} {n : Int} {written : Copied w}
    (hwritten : writeChunk dstAddr (window (2 ^ w) src (srcAddr + rsz).toNat len) len len wsz mem
      writes = written)
    (h : (copyTurns src srcAddr dstAddr sz rsz wsz mem (⟨.ok len, writes⟩ :: turns)).res = some n)
    (hn : 0 ≤ n) :
    ∃ v, written.res = some v ∧ 0 ≤ v ∧
      copyTurns src srcAddr dstAddr sz rsz wsz mem (⟨.ok len, writes⟩ :: turns) =
        if sz - (rsz + BitVec.ofNat w len) > 0 ∧ v > 0 then
          copyTurns src srcAddr dstAddr sz (rsz + BitVec.ofNat w len) written.wsz written.mem turns
        else { written with res := some written.wsz.toInt } := by
  simp only [copyTurns, hwritten] at h ⊢
  split at h
  · rename_i hnone
    rw [hnone] at h
    cases h
  · rename_i v hv
    split at h
    · rename_i hneg
      rw [hv] at h
      cases h
      omega
    · rename_i hnonneg
      refine ⟨v, hv, Int.not_lt.mp hnonneg, ?_⟩
      rw [if_neg hnonneg]

/-- What a copy of which `rsz` bytes are done stores of the chunks that are left, and what it
returns. -/
structure StoresChunks (src : Nat → UInt8) (srcAddr dstAddr sz rsz : BitVec w) (mem : Nat → UInt8)
    (turns : List Turn) (chunks : List (List Nat)) (n : Int) (mem' : Nat → UInt8) : Prop where
  turns_eq : turns = chunks.map wholeTurn
  pos : ∀ lens ∈ chunks, ∀ len ∈ lens, 0 < len
  size : n = (rsz.toNat + total chunks : Nat)
  inside : rsz.toNat + total chunks ≤ sz.toNat
  mem_eq : mem' = ringWrite (2 ^ w) mem (dstAddr + rsz).toNat
    (chunkBytes w src (srcAddr + rsz).toNat chunks)
  all : (∀ turn ∈ turns, turn.read ≠ .ok 0) → n = sz.toNat

section
variable {src mem mem' : Nat → UInt8} {srcAddr dstAddr sz rsz : BitVec w} {lens : List Nat}
variable (hpos : ∀ len ∈ lens, 0 < len) (hle : rsz.toNat + lens.sum ≤ sz.toNat)
include hpos hle

/-- The last chunk: nothing was read, or nothing is missing. -/
theorem storesChunks_last (hlast : ¬(rsz.toNat + lens.sum < sz.toNat ∧ 0 < lens.sum)) :
    StoresChunks src srcAddr dstAddr sz rsz mem [wholeTurn lens] [lens]
      (rsz.toNat + lens.sum : Nat) (ringWrite (2 ^ w) mem (dstAddr + rsz).toNat
        (storedBytes (window (2 ^ w) src (srcAddr + rsz).toNat lens.sum) lens)) := by
  have htotal : total [lens] = lens.sum := by simp [total]
  refine ⟨rfl, ?_, by rw [htotal], by rw [htotal]; exact hle, ?_, fun hreads => ?_⟩
  · rintro l (_ | ⟨_, hl⟩)
    · exact hpos
    · cases hl
  · rw [chunkBytes, chunkBytes, List.append_nil]
  · have hne : lens.sum ≠ 0 := fun hzero => hreads _ (.head _) (by rw [wholeTurn, hzero])
    congr 1
    omega

theorem StoresChunks.cons {turns : List Turn} {chunks : List (List Nat)} {n : Int}
    (h : StoresChunks src srcAddr dstAddr sz (rsz + BitVec.ofNat w lens.sum)
      (ringWrite (2 ^ w) mem (dstAddr + rsz).toNat
        (storedBytes (window (2 ^ w) src (srcAddr + rsz).toNat lens.sum) lens)) turns chunks n mem') :
    StoresChunks src srcAddr dstAddr sz rsz mem (wholeTurn lens :: turns) (lens :: chunks) n
      mem' := by
  have hadd := toNat_add_ofNat_of_lt rsz (hle.trans_lt sz.isLt)
  have hsize := h.size
  have hinside := h.inside
  rw [hadd] at hsize hinside
  refine ⟨by rw [h.turns_eq, List.map_cons], ?_, ?_, ?_, ?_, fun hreads => ?_⟩
  · rintro l (_ | ⟨_, hl⟩)
    · exact hpos
    · exact h.pos l hl
  · rw [hsize, total_cons, Nat.add_assoc]
  · rw [total_cons, ← Nat.add_assoc]
    exact hinside
  · rw [h.mem_eq, chunkBytes, ringWrite_append, length_storedBytes (by simp), ← BitVec.add_assoc,
      ← BitVec.add_assoc, toNat_add_ofNat, toNat_add_ofNat, ringWrite_mod, chunkBytes_mod]
  · exact h.all fun turn hturn => hreads turn (.tail _ hturn)

end

/-- A call that returns `n ≥ 0` was answered with whole turns, and these say what it stored. -/
theorem copyTurns_spec (src : Nat → UInt8) (srcAddr dstAddr : BitVec w) {sz rsz : BitVec w}
    {mem : Nat → UInt8} {turns : List Turn} {n : Int} (hle : rsz.toNat ≤ sz.toNat)
    (hfit : TurnsFit sz rsz turns)
    (h : (copyTurns src srcAddr dstAddr sz rsz rsz mem turns).res = some n) (hn : 0 ≤ n) :
    ∃ chunks : List (List Nat), StoresChunks src srcAddr dstAddr sz rsz mem turns chunks n
      (copyTurns src srcAddr dstAddr sz rsz rsz mem turns).mem := by
  induction turns generalizing rsz mem with
  | nil => cases h
  | cons turn turns ih =>
      obtain ⟨read, writes⟩ := turn
      cases read with
      | error res =>
          cases h
          exact absurd hfit (Int.not_lt.mpr hn)
      | ok len =>
          obtain ⟨hlen, hwrites, hrest⟩ := hfit
          have hsub : (sz - rsz).toNat = sz.toNat - rsz.toNat := BitVec.toNat_sub_of_le hle
          rw [chunkSize, hsub] at hlen
          obtain ⟨v, hv, hnonneg, hstep⟩ := copyTurns_step rfl h hn
          obtain ⟨lens, rfl, rfl, hpos, hwsz, hmem, hres⟩ :=
            writeChunk_spec (length_window _ _ _).ge hwrites hv hnonneg
          have hle' : rsz.toNat + lens.sum ≤ sz.toNat := by omega
          have hadd := toNat_add_ofNat_of_lt rsz (hle'.trans_lt sz.isLt)
          -- `res` says whether the read gave something
          have hv_pos : v > 0 ↔ 0 < lens.sum := by
            split at hres <;> omega
          have hmore_iff := sub_pos_iff (hadd.trans_le hle')
          rw [hstep, hwsz, hmem] at h
          rw [hstep, hwsz, hmem]
          simp only [hv_pos, hmore_iff, hadd] at h hrest ⊢
          split at h
          · rename_i hmore
            rw [if_pos hmore] at hrest ⊢
            obtain ⟨chunks, hchunks⟩ := ih (hadd.trans_le hle') hrest h
            exact ⟨lens :: chunks, hchunks.cons hpos hle'⟩
          · rename_i hlast
            cases h
            rw [if_neg hlast] at hrest
            rw [hrest, if_neg hlast, toInt_of_nonneg hn, hadd]
            exact ⟨[lens], storesChunks_last hpos hle' hlast⟩

theorem cpphfs2phfs_spec {src mem : Nat → UInt8} {srcAddr srcSz dstAddr dstSz : BitVec w}
    {turns : List Turn} {n : Int} (hfit : TurnsFit (copySize srcSz dstSz) 0 turns)
    (h : (cpphfs2phfs src mem srcAddr srcSz dstAddr dstSz turns).res = some n) (hn : 0 ≤ n) :
    ∃ chunks : List (List Nat), turns = chunks.map wholeTurn ∧
      (∀ lens ∈ chunks, ∀ len ∈ lens, 0 < len) ∧ n = total chunks ∧ total chunks ≤ 2 ^ w ∧
      (cpphfs2phfs src mem srcAddr srcSz dstAddr dstSz turns).mem =
        ringWrite (2 ^ w) mem dstAddr.toNat (chunkBytes w src srcAddr.toNat chunks) ∧
      ((∀ turn ∈ turns, turn.read ≠ .ok 0) → n = (copySize srcSz dstSz).toNat) := by
  obtain ⟨chunks, hturns, hpos, hlen, hle, hmem, hall⟩ :=
    copyTurns_spec src srcAddr dstAddr (Nat.zero_le _) hfit h hn
  simp only [BitVec.ofNat_eq_ofNat, BitVec.toNat_zero, Nat.zero_add, BitVec.add_zero]
    at hlen hle hmem
  exact ⟨chunks, hturns, hpos, hlen, hle.trans (copySize srcSz dstSz).isLt.le, hmem, hall⟩

/-- What the loops return does not depend on what the devices hold. -/
theorem writeChunk_length (dstAddr : BitVec w) (buff buff' : List UInt8) (chunk : Nat) (res : Int)
    (wsz : BitVec w) (mem mem' : Nat → UInt8) (writes : List Answer) :
    (writeChunk dstAddr buff chunk res wsz mem writes).res =
        (writeChunk dstAddr buff' chunk res wsz mem' writes).res ∧
      (writeChunk dstAddr buff chunk res wsz mem writes).wsz =
        (writeChunk dstAddr buff' chunk res wsz mem' writes).wsz := by
  induction writes generalizing chunk res wsz mem mem' with
  | nil => cases chunk <;> exact ⟨rfl, rfl⟩
  | cons answer writes ih =>
      cases chunk with
      | zero => exact ⟨rfl, rfl⟩
      | succ chunk =>
          cases answer with
          | error res => exact ⟨rfl, rfl⟩
          | ok len => exact ih _ _ _ _ _

theorem copyTurns_length (src src' : Nat → UInt8) (srcAddr dstAddr sz rsz wsz : BitVec w)
    (mem mem' : Nat → UInt8) (turns : List Turn) :
    (copyTurns src srcAddr dstAddr sz rsz wsz mem turns).res =
      (copyTurns src' srcAddr dstAddr sz rsz wsz mem' turns).res := by
  induction turns generalizing rsz wsz mem mem' with
  | nil => rfl
  | cons turn turns ih =>
      obtain ⟨read, writes⟩ := turn
      cases read with
      | error res => rfl
      | ok len =>
          obtain ⟨hres, hwsz⟩ := writeChunk_length dstAddr
            (window (2 ^ w) src (srcAddr + rsz).toNat len)
            (window (2 ^ w) src' (srcAddr + rsz).toNat len) len len wsz mem mem' writes
          simp only [copyTurns, hres, hwsz]
          split
          · exact hres
          · split
            · exact hres
            · split
              · exact ih _ _ _ _
              · rfl

/-- A chunk is stored as it was read, whatever that is, exactly when it takes one write. -/
theorem storedBytes_right_iff (pos : Nat) {lens : List Nat} (hpos : ∀ len ∈ lens, 0 < len)
    (hsum : lens.sum ≤ 2 ^ w) :
    (∀ src : Nat → UInt8, storedBytes (window (2 ^ w) src pos lens.sum) lens =
        window (2 ^ w) src pos lens.sum) ↔ lens.length ≤ 1 := by
  match lens with
  | [] => exact iff_of_true (fun _ => rfl) (Nat.zero_le _)
  | [len] =>
      refine iff_of_true (fun src => ?_) (Nat.le_refl _)
      rw [storedBytes_cons, window_take]
      simp [storedBytes]
  | len :: len' :: lens =>
      refine iff_of_false (fun h => ?_) (by simp)
      have hlen := hpos len (.head _)
      have hlen' := hpos len' (.tail _ (.head _))
      simp only [List.sum_cons] at hsum h
      -- a source that differs in the two bytes that the second write confuses
      let src : Nat → UInt8 := fun a => if a = pos % 2 ^ w then 1 else 0
      have hbytes := congrArg (fun l => l[len]?) (h src)
      have hbyte : ∀ k, k < len + (len' + lens.sum) →
          (window (2 ^ w) src pos (len + (len' + lens.sum)))[k]? = some (src ((pos + k) % 2 ^ w)) := by
        intro k hk
        simp [window, hk]
      have hne : (pos + len) % 2 ^ w ≠ pos % 2 ^ w := by
        intro heq
        have hmod : len % 2 ^ w = 0 % 2 ^ w := Nat.ModEq.add_left_cancel' pos heq
        rw [Nat.mod_eq_of_lt (by omega), Nat.zero_mod] at hmod
        omega
      simp only [storedBytes_cons] at hbytes
      rw [hbyte len (by omega), List.getElem?_append_right (by simp), List.length_take,
        length_window, Nat.min_eq_left (by omega), Nat.sub_self,
        List.getElem?_append_left (by simp; omega), List.getElem?_take_of_lt hlen',
        hbyte 0 (by omega)] at hbytes
      simp [src, hne] at hbytes

theorem chunkBytes_right_iff (pos : Nat) {chunks : List (List Nat)}
    (hpos : ∀ lens ∈ chunks, ∀ len ∈ lens, 0 < len) (hsum : total chunks ≤ 2 ^ w) :
    (∀ src : Nat → UInt8, chunkBytes w src pos chunks = window (2 ^ w) src pos (total chunks)) ↔
      ∀ lens ∈ chunks, lens.length ≤ 1 := by
  induction chunks generalizing pos with
  | nil => exact iff_of_true (fun _ => rfl) nofun
  | cons lens chunks ih =>
      rw [total_cons] at hsum
      have hhead := storedBytes_right_iff (w := w) pos (hpos lens (.head _)) (by omega)
      have htail := ih (pos + lens.sum) (fun l hl => hpos l (.tail _ hl)) (by omega)
      rw [List.forall_mem_cons, ← hhead, ← htail, ← forall_and]
      refine forall_congr' fun src => ?_
      rw [chunkBytes, total_cons, window_add]
      constructor
      · intro h
        exact List.append_inj h (by rw [length_storedBytes (by simp), length_window])
      · intro h
        rw [h.1, h.2]

theorem copyRight_iff (src mem : Nat → UInt8) {srcAddr srcSz dstAddr dstSz : BitVec w}
    {chunks : List (List Nat)} {n : Int}
    (hfit : TurnsFit (copySize srcSz dstSz) 0 (chunks.map wholeTurn))
    (h : (cpphfs2phfs src mem srcAddr srcSz dstAddr dstSz (chunks.map wholeTurn)).res = some n)
    (hn : 0 ≤ n) :
    CopyRight src mem srcAddr dstAddr (copySize srcSz dstSz) (chunks.map wholeTurn)
        (cpphfs2phfs src mem srcAddr srcSz dstAddr dstSz (chunks.map wholeTurn)) ↔
      chunkBytes w src srcAddr.toNat chunks = window (2 ^ w) src srcAddr.toNat (total chunks) := by
  obtain ⟨chunks', hchunks, -, hlen, hle, hmem, hall⟩ := cpphfs2phfs_spec hfit h hn
  cases List.map_injective_iff.mpr wholeTurn_injective hchunks
  have hlength := length_chunkBytes (w := w) src srcAddr.toNat chunks
  have hstored := window_ringWrite mem dstAddr.toNat 0
    (chunkBytes w src srcAddr.toNat chunks) (show _ ≤ 2 ^ w by omega)
  rw [hlength, Nat.zero_add, Nat.add_zero, ← hmem] at hstored
  have hn : n.toNat = total chunks := by omega
  constructor
  · intro hright
    have hcopied := (hright n h (by omega)).1
    rw [hn, hstored] at hcopied
    exact hcopied
  · intro hbytes m hm _
    cases h.symm.trans hm
    rw [hn]
    refine ⟨hstored.trans hbytes, fun a ha => ?_, hall⟩
    rw [hmem]
    exact ringWrite_outside mem fun k hk => ha k (by omega)

/-- A copy that returns is right whatever the devices hold exactly when every chunk that was
read is taken by one write. -/
theorem copy_right_iff (srcAddr srcSz dstAddr dstSz : BitVec w) (turns : List Turn)
    (hfit : TurnsFit (copySize srcSz dstSz) 0 turns) (src₀ mem₀ : Nat → UInt8) (n : Int)
    (hret : (cpphfs2phfs src₀ mem₀ srcAddr srcSz dstAddr dstSz turns).res = some n)
    (hn : 0 ≤ n) :
    (∀ src mem, CopyRight src mem srcAddr dstAddr (copySize srcSz dstSz) turns
        (cpphfs2phfs src mem srcAddr srcSz dstAddr dstSz turns)) ↔
      ∀ turn ∈ turns, turn.writes.length ≤ 1 := by
  obtain ⟨chunks, rfl, hpos, -, hle, -, -⟩ := cpphfs2phfs_spec hfit hret hn
  have hright := fun src mem => copyRight_iff src mem hfit
    ((copyTurns_length _ _ _ _ _ _ _ _ _ _).trans hret) hn
  have hturns : (∀ turn ∈ chunks.map wholeTurn, turn.writes.length ≤ 1) ↔
      ∀ lens ∈ chunks, lens.length ≤ 1 := by
    simp [wholeTurn]
  simp only [hright, forall_const]
  rw [hturns]
  exact chunkBytes_right_iff srcAddr.toNat hpos hle

/-- Two chunks of three bytes and one, each in one write. -/
theorem copy_right_iff_two_chunks :
    CopyRight (fun a => UInt8.ofNat a) (fun _ => 0) (0x10 : BitVec 32) 0x20 4
      [wholeTurn [3], wholeTurn [1]]
      (cpphfs2phfs (fun a => UInt8.ofNat a) (fun _ => 0) (0x10 : BitVec 32) 4 0x20 0
        [wholeTurn [3], wholeTurn [1]]) := by
  refine (copy_right_iff 0x10 4 0x20 0 [wholeTurn [3], wholeTurn [1]] ?_ (fun _ => 0) (fun _ => 0)
    4 rfl (by decide)).2 ?_ _ _
  · refine ⟨by decide, ⟨by decide, by decide, rfl⟩, ?_⟩
    rw [if_pos (by decide)]
    refine ⟨by decide, ⟨by decide, by decide, rfl⟩, ?_⟩
    rw [if_neg (by decide)]
  · decide

/-- The device takes two of three bytes, and then the third one: it is given the first. -/
theorem short_write_damages_copy :
    TurnsFit (copySize (3 : BitVec 32) 0) 0 [wholeTurn [2, 1]] ∧
      (cpphfs2phfs (fun a => UInt8.ofNat a) (fun _ => 0) (0x10 : BitVec 32) 3 0x20 0
        [wholeTurn [2, 1]]).res = some 3 ∧
      ¬ CopyRight (fun a => UInt8.ofNat a) (fun _ => 0) (0x10 : BitVec 32) 0x20
        (copySize (3 : BitVec 32) 0) [wholeTurn [2, 1]]
        (cpphfs2phfs (fun a => UInt8.ofNat a) (fun _ => 0) (0x10 : BitVec 32) 3 0x20 0
          [wholeTurn [2, 1]]) := by
  refine ⟨?_, rfl, fun h => ?_⟩
  · refine ⟨by decide, ⟨by decide, by decide, by decide, by decide, rfl⟩, ?_⟩
    rw [if_neg (by decide)]
  · have hbytes := (h 3 rfl (by decide)).1
    revert hbytes
    decide +kernel

end Plo.Cmds
