import Plo.Hal.MpuRange

/-!
What `mpu_regionGenerate` appends to the table. An outcome says which regions a
step put into the table, whether it succeeded or not, and what is known of them
when it did; outcomes are composed the way the source chains its calls.
-/
namespace Plo.Hal

/-- The table with regions stored from a slot on. -/
def place (region : Nat → MpuRegion) : Nat → List MpuRegion → Nat → MpuRegion
  | _, [] => region
  | idx, r :: rs => place (Function.update region idx r) (idx + 1) rs

theorem place_append (region : Nat → MpuRegion) (idx : Nat) (rs rs' : List MpuRegion) :
    place region idx (rs ++ rs') = place (place region idx rs) (idx + rs.length) rs' := by
  induction rs generalizing region idx with
  | nil => rfl
  | cons r rs ih =>
      simp only [List.cons_append, place, List.length_cons]
      rw [ih, Nat.add_right_comm, Nat.add_assoc]

/-- The step stored some regions from `idx` on, at most as many as there are, and
if it succeeded they satisfy `P`. -/
def Outcome (m : MpuCommon) (idx : Nat) (res : MpuResult) (P : List MpuRegion → Prop) : Prop :=
  ∃ rs, res.1 = { m with region := place m.region idx rs } ∧ res.2.1 = idx + rs.length ∧
    (idx ≤ m.regMax → res.2.1 ≤ m.regMax) ∧ (res.2.2 = EOK → P rs)

section Outcome
variable {m : MpuCommon} {idx : Nat} {P Q : List MpuRegion → Prop}

theorem Outcome.fail {e : Int} (he : e ≠ EOK) : Outcome m idx (m, idx, e) P :=
  ⟨[], rfl, rfl, fun h => h, fun h => absurd h he⟩

theorem Outcome.set {base attr : BitVec 32} {srd : BitVec 8} {k : Nat}
    (hP : 5 ≤ k → P [regionEntry idx base srd k attr]) :
    Outcome m idx (regionSet m idx base srd k attr) P := by
  simp only [regionSet]
  split
  · exact .fail (by decide)
  · next h =>
    rw [not_or, not_lt, not_le] at h
    exact ⟨_, rfl, rfl, fun _ => h.2, fun _ => hP h.1⟩

theorem Outcome.bind {res : MpuResult} {f : MpuCommon → Nat → MpuResult}
    (h : Outcome m idx res P)
    (hf : ∀ m' idx' rs, P rs → Outcome m' idx' (f m' idx') (fun rs' => Q (rs ++ rs'))) :
    Outcome m idx (if res.2.2 = EOK then f res.1 res.2.1 else res) Q := by
  obtain ⟨rs, hm, hidx, hmax, hP⟩ := h
  split
  · next he =>
    obtain ⟨rs', hm', hidx', hmax', hQ⟩ := hf res.1 res.2.1 rs (hP he)
    refine ⟨rs ++ rs', ?_, ?_, ?_, hQ⟩
    · rw [hm', hm, hidx, place_append]
    · rw [hidx', hidx, List.length_append, Nat.add_assoc]
    · intro hle
      have hsame : res.1.regMax = m.regMax := by rw [hm]
      rw [hsame] at hmax'
      exact hmax' (hmax hle)
  · next he => exact ⟨rs, hm, hidx, hmax, fun h => absurd h he⟩

theorem Outcome.mono {res : MpuResult} (h : Outcome m idx res P) (hPQ : ∀ rs, P rs → Q rs) :
    Outcome m idx res Q := by
  obtain ⟨rs, hm, hidx, hmax, hP⟩ := h
  exact ⟨rs, hm, hidx, hmax, fun he => hPQ rs (hP he)⟩

/-- A branch of the source. -/
theorem Outcome.ite {c : Prop} [Decidable c] {res res' : MpuResult}
    (h : c → Outcome m idx res P) (h' : ¬c → Outcome m idx res' P) :
    Outcome m idx (if c then res else res') P := by
  by_cases hc : c
  · rw [if_pos hc]
    exact h hc
  · rw [if_neg hc]
    exact h' hc

end Outcome

/-- `mpu_checkOverlap` looks at the region and finds its size. -/
structure Seen (r : MpuRegion) : Prop where
  valid : r.rbar &&& 0x10 ≠ 0
  size : 5 ≤ r.sizeBit

/-- The regions cover a range exactly and all grant what the attributes say. -/
structure Span (rs : List MpuRegion) (attr : BitVec 32) (lo hi : Nat) : Prop where
  covers : ∀ a, Covered rs a ↔ attr.getLsbD 0 = true ∧ lo ≤ a.toNat ∧ a.toNat < hi
  grants : ∀ r ∈ rs, grantBits r.rasr = grantBits attr
  seen : ∀ r ∈ rs, Seen r

theorem Span.append {rs rs' : List MpuRegion} {attr : BitVec 32} {lo mid hi : Nat}
    (h : Span rs attr lo mid) (h' : Span rs' attr mid hi) (hlo : lo ≤ mid) (hhi : mid ≤ hi) :
    Span (rs ++ rs') attr lo hi where
  covers a := by
    rw [covered_append, h.covers, h'.covers, ← and_or_left]
    refine and_congr_right fun _ => ?_
    omega
  grants r hr := (List.mem_append.mp hr).elim (h.grants r) (h'.grants r)
  seen r hr := (List.mem_append.mp hr).elim (h.seen r) (h'.seen r)

theorem Span.single {idx k : Nat} {base attr : BitVec 32} {srd : BitVec 8} {lo hi : Nat}
    (hattr : AttrBits attr) (hk : 5 ≤ k) (hk' : k ≤ 32)
    (h : ∀ a, (regionEntry idx base srd k attr).Covers a ↔
      attr.getLsbD 0 = true ∧ lo ≤ a.toNat ∧ a.toNat < hi) :
    Span [regionEntry idx base srd k attr] attr lo hi where
  covers a := by simpa only [Covered, List.mem_singleton, exists_eq_left] using h a
  grants r hr := by
    rw [List.mem_singleton.mp hr, grantBits, accessBits_entry]
    rfl
  seen r hr := by
    rw [List.mem_singleton.mp hr]
    refine ⟨rbar_entry_valid idx base srd k attr, ?_⟩
    rwa [sizeBit_entry idx base srd k hattr (by omega) hk']

theorem calculate_outcome (m : MpuCommon) (idx : Nat) {start end_ attr : BitVec 32} {k : Nat}
    (hattr : AttrBits attr) (hk : 8 ≤ k) (hk' : k ≤ 32) (hs : 2 ^ (k - 3) ∣ start.toNat)
    (he : 2 ^ (k - 3) ∣ rangeEnd end_) (hlt : start.toNat < rangeEnd end_)
    (hblock : start.toNat / 2 ^ k = (rangeEnd end_ - 1) / 2 ^ k) :
    Outcome m idx (regionCalculateAndSet m idx start end_ k attr)
      (fun rs => ∃ r, rs = [r] ∧ Span rs attr start.toNat (rangeEnd end_)) :=
  .set fun h5 => ⟨_, rfl, .single hattr h5 hk'
    (covers_calculated idx hattr hk hk' hs he hlt hblock)⟩

section Branches
variable {start end_ attr : BitVec 32} {t c : Nat}

/-- Three significant bits fit one region. -/
theorem one_block (m : MpuCommon) (idx : Nat) (hattr : AttrBits attr) (hb : Bits start end_ t c)
    (ht : t < 30) (hsig : c - t ≤ 3) :
    Outcome m idx (regionCalculateAndSet m idx start end_ (t + 3) attr)
      (fun rs => Span rs attr start.toNat (rangeEnd end_)) := by
  have h5 := hb.five_le
  refine (calculate_outcome m idx hattr (by omega) (by omega) hb.start_dvd hb.end_dvd hb.lt
    (div_eq_of_le hb.block (by omega))).mono ?_
  rintro rs ⟨r, rfl, hspan⟩
  exact hspan

/-- Four significant bits fit two regions that meet between two blocks. -/
theorem two_blocks (m : MpuCommon) (idx : Nat) (hattr : AttrBits attr)
    (hb : Bits start end_ t c) (hsig : c - t = 4) {mid : BitVec 32}
    (hmid : mid = (start &&& ~~~((1#32 <<< (t + 3)) - 1)) + ((1#32 <<< (t + 3)) - 1) + 1) :
    Outcome m idx
      (match regionCalculateAndSet m idx start mid (t + 3) attr with
        | (m, idx, res) =>
          if res = EOK then regionCalculateAndSet m idx mid end_ (t + 3) attr
          else (m, idx, res))
      (fun rs => Span rs attr start.toNat (rangeEnd end_)) := by
  have h5 := hb.five_le
  have h32 := hb.le_32
  have hlt := hb.lt
  have hend := rangeEnd_le end_
  obtain rfl : c = t + 4 := by omega
  have hpos : 0 < 2 ^ (t + 3) := Nat.two_pow_pos _
  have hnext : (rangeEnd end_ - 1) / 2 ^ (t + 3) = start.toNat / 2 ^ (t + 3) + 1 := by
    have hblock := hb.block
    have hsplit := hb.split
    have hle : start.toNat / 2 ^ (t + 3) ≤ (rangeEnd end_ - 1) / 2 ^ (t + 3) :=
      Nat.div_le_div_right (by omega)
    rw [show t + 4 = t + 3 + 1 by rfl, Nat.pow_succ, ← Nat.div_div_eq_div_mul,
      ← Nat.div_div_eq_div_mul] at hblock
    rw [show t + 4 - 1 = t + 3 by omega] at hsplit
    omega
  have hmidEnd : rangeEnd mid = (start.toNat / 2 ^ (t + 3) + 1) * 2 ^ (t + 3) := by
    rw [hmid]
    exact rangeEnd_next start (by omega)
  have hmidLast : rangeEnd mid ≤ rangeEnd end_ - 1 := by
    rw [hmidEnd, ← hnext]
    exact Nat.div_mul_le_self _ _
  have hmidNat : mid.toNat = rangeEnd mid := toNat_of_rangeEnd_lt (by omega)
  have hmidDvd : 2 ^ t ∣ rangeEnd mid := by
    rw [hmidEnd]
    exact (Nat.pow_dvd_pow 2 (by omega)).trans (Nat.dvd_mul_left _ _)
  have hstartMid : start.toNat < rangeEnd mid := by
    rw [hmidEnd, Nat.mul_comm]
    exact Nat.lt_mul_div_succ _ hpos
  refine Outcome.bind (f := fun m idx => regionCalculateAndSet m idx mid end_ (t + 3) attr)
    (calculate_outcome m idx hattr (by omega) (by omega) hb.start_dvd hmidDvd hstartMid ?_) ?_
  · rw [hmidEnd, Nat.add_mul, Nat.one_mul, Nat.add_sub_assoc hpos, Nat.mul_comm,
      Nat.mul_add_div hpos, Nat.div_eq_of_lt (Nat.sub_lt hpos Nat.one_pos)]
    exact (Nat.add_zero _).symm
  · rintro m' idx' rs ⟨r, rfl, hspan⟩
    refine (calculate_outcome m' idx' hattr (by omega) (by omega) ?_ hb.end_dvd ?_ ?_).mono ?_
    · rw [hmidNat]
      exact hmidDvd
    · omega
    · rw [hmidNat, hmidEnd, Nat.mul_div_cancel _ hpos, hnext]
    · rintro rs' ⟨r', rfl, hspan'⟩
      rw [hmidNat] at hspan'
      exact hspan.append hspan' hstartMid.le (by omega)

end Branches

/-- A range given to its own regions, or to a larger region and to a hole that
overrides no earlier region. -/
inductive Shape (m : MpuCommon) (idx : Nat) (attr : BitVec 32) (lo hi : Nat) :
    List MpuRegion → Prop
  | direct {rs : List MpuRegion} (span : Span rs attr lo hi) : Shape m idx attr lo hi rs
  | cut {r : MpuRegion} {rs : List MpuRegion} {alo ahi : Nat} {holeStart holeEnd : BitVec 32}
      (hne : attr ≠ holeAttr attr) (large : Span [r] attr alo ahi)
      (hole : Span rs (holeAttr attr) holeStart.toNat (rangeEnd holeEnd))
      (free : checkOverlap m idx holeStart holeEnd = false)
      (surplus : (alo = lo ∧ holeStart.toNat = hi ∧ rangeEnd holeEnd = ahi) ∨
        (holeStart.toNat = alo ∧ rangeEnd holeEnd = lo ∧ ahi = hi))
      (order : alo ≤ lo ∧ lo ≤ hi ∧ hi ≤ ahi) : Shape m idx attr lo hi (r :: rs)

/-- Calls that make a hole are answered by regions of its exact extent. -/
def MakesHoles (hole : Generate) (attr : BitVec 32) : Prop :=
  ∀ m idx (holeStart holeEnd : BitVec 32), rangeEnd holeEnd - holeStart.toNat < 2 ^ 29 →
    Outcome m idx (hole m idx holeStart holeEnd (holeAttr attr))
      (fun rs => Span rs (holeAttr attr) holeStart.toNat (rangeEnd holeEnd))

section Cut
variable {start end_ attr : BitVec 32} {t c : Nat} {hole : Generate}

theorem cut_outcome (m : MpuCommon) (idx : Nat) (hattr : AttrBits attr)
    (hne : attr ≠ holeAttr attr) (hhole : MakesHoles hole attr) (hc : 8 ≤ c) (hc' : c ≤ 32)
    {alignedStart alignedEnd holeStart holeEnd : BitVec 32} {lo hi : Nat}
    (hs : 2 ^ (c - 3) ∣ alignedStart.toNat) (he : 2 ^ (c - 3) ∣ rangeEnd alignedEnd)
    (hblock : alignedStart.toNat / 2 ^ c = (rangeEnd alignedEnd - 1) / 2 ^ c)
    (hsmall : rangeEnd holeEnd - holeStart.toNat < 2 ^ 29)
    (surplus : (alignedStart.toNat = lo ∧ holeStart.toNat = hi ∧
        rangeEnd holeEnd = rangeEnd alignedEnd) ∨
      (holeStart.toNat = alignedStart.toNat ∧ rangeEnd holeEnd = lo ∧ rangeEnd alignedEnd = hi))
    (order : alignedStart.toNat ≤ lo ∧ lo < hi ∧ hi ≤ rangeEnd alignedEnd) :
    Outcome m idx (regionCut hole m idx alignedStart alignedEnd holeStart holeEnd c attr)
      (Shape m idx attr lo hi) := by
  simp only [regionCut]
  split
  · exact .fail (by decide)
  · next hfree =>
    refine Outcome.bind (f := fun m idx => hole m idx holeStart holeEnd (holeAttr attr))
      (calculate_outcome m idx hattr hc hc' hs he (by omega) hblock) ?_
    rintro m' idx' rs ⟨r, rfl, hlarge⟩
    refine (hhole m' idx' holeStart holeEnd hsmall).mono ?_
    intro rs' hspan
    exact .cut hne hlarge hspan (Bool.eq_false_iff.mpr hfree) surplus
      ⟨order.1, order.2.1.le, order.2.2⟩

theorem eq_roundDown_iff (x : BitVec 32) {k : Nat} (hk : k ≤ 32) :
    x &&& ~~~((1#32 <<< k) - 1) = x ↔ 2 ^ k ∣ x.toNat := by
  constructor
  · intro h
    have hval := congrArg BitVec.toNat h
    rw [toNat_and_not_lowMask x hk] at hval
    exact ⟨x.toNat / 2 ^ k, by rw [Nat.mul_comm, hval]⟩
  · intro h
    apply BitVec.eq_of_toNat_eq
    rw [toNat_and_not_lowMask x hk, Nat.div_mul_cancel h]

theorem last_div {x d : Nat} (h : ¬ 2 ^ d ∣ x) : ((x / 2 ^ d + 1) * 2 ^ d - 1) / 2 ^ d =
    (x - 1) / 2 ^ d := by
  have hpos : 0 < 2 ^ d := Nat.two_pow_pos d
  have hmod : x % 2 ^ d ≠ 0 := fun h0 => h (Nat.dvd_of_mod_eq_zero h0)
  have hx := Nat.div_add_mod x (2 ^ d)
  have hlt := Nat.mod_lt x hpos
  have h1 : ((x / 2 ^ d + 1) * 2 ^ d - 1) / 2 ^ d = x / 2 ^ d := by
    rw [Nat.div_eq_iff hpos, Nat.add_mul]
    omega
  have h2 : (x - 1) / 2 ^ d = x / 2 ^ d := by
    rw [Nat.div_eq_iff hpos, Nat.mul_comm]
    omega
  rw [h1, h2]

theorem cut_end (m : MpuCommon) (idx : Nat) (hattr : AttrBits attr)
    (hne : attr ≠ holeAttr attr) (hhole : MakesHoles hole attr) (hb : Bits start end_ t c)
    (hsig : 5 ≤ c - t) (hs : 2 ^ (c - 3) ∣ start.toNat) {aend : BitVec 32}
    (haend : aend = (end_ &&& ~~~((1#32 <<< (c - 3)) - 1)) + ((1#32 <<< (c - 3)) - 1) + 1) :
    Outcome m idx (regionCut hole m idx start aend end_ aend c attr)
      (Shape m idx attr start.toNat (rangeEnd end_)) := by
  have h5 := hb.five_le
  have h32 := hb.le_32
  have hlt := hb.lt
  have hpos : 0 < 2 ^ (c - 3) := Nat.two_pow_pos _
  have hnot : ¬ 2 ^ (c - 3) ∣ rangeEnd end_ := by
    intro h
    have := hb.le_t (c - 3) (by omega) hs h
    omega
  have hend : end_.toNat = rangeEnd end_ := by
    refine toNat_of_rangeEnd_lt (lt_of_le_of_ne (rangeEnd_le end_) ?_)
    intro h
    exact hnot (h ▸ Nat.pow_dvd_pow 2 (by omega))
  have haendVal : rangeEnd aend = (rangeEnd end_ / 2 ^ (c - 3) + 1) * 2 ^ (c - 3) := by
    rw [haend, rangeEnd_next end_ (by omega), hend]
  have hle : rangeEnd end_ < rangeEnd aend := by
    rw [haendVal, Nat.mul_comm]
    exact Nat.lt_mul_div_succ _ hpos
  refine cut_outcome m idx hattr hne hhole (by omega) h32 hs ?_ ?_ ?_ ?_ ⟨le_rfl, hlt, hle.le⟩
  · rw [haendVal]
    exact Nat.dvd_mul_left _ _
  · rw [hb.block]
    refine (div_eq_of_le ?_ (by omega : c - 3 ≤ c)).symm
    rw [haendVal]
    exact last_div hnot
  · have hmod := Nat.div_add_mod (rangeEnd end_) (2 ^ (c - 3))
    have hpow : 2 ^ (c - 3) ≤ 2 ^ 29 := Nat.pow_le_pow_right (by decide) (by omega)
    rw [haendVal, hend, Nat.add_mul, Nat.one_mul, Nat.mul_comm]
    have hne0 : rangeEnd end_ % 2 ^ (c - 3) ≠ 0 := fun h0 => hnot (Nat.dvd_of_mod_eq_zero h0)
    omega
  · exact Or.inl ⟨rfl, hend, rfl⟩

theorem cut_start (m : MpuCommon) (idx : Nat) (hattr : AttrBits attr)
    (hne : attr ≠ holeAttr attr) (hhole : MakesHoles hole attr) (hb : Bits start end_ t c)
    (hsig : 5 ≤ c - t) (hs : ¬ 2 ^ (c - 3) ∣ start.toNat) (he : 2 ^ (c - 3) ∣ end_.toNat)
    {astart : BitVec 32} (hastart : astart = start &&& ~~~((1#32 <<< (c - 3)) - 1)) :
    Outcome m idx (regionCut hole m idx astart end_ astart start c attr)
      (Shape m idx attr start.toNat (rangeEnd end_)) := by
  have h5 := hb.five_le
  have h32 := hb.le_32
  have hlt := hb.lt
  have hpos : 0 < 2 ^ (c - 3) := Nat.two_pow_pos _
  have hval : astart.toNat = start.toNat / 2 ^ (c - 3) * 2 ^ (c - 3) := by
    rw [hastart, toNat_and_not_lowMask start (by omega)]
  have hle : astart.toNat ≤ start.toNat := hval ▸ Nat.div_mul_le_self _ _
  have hstart : rangeEnd start = start.toNat := by
    simp only [rangeEnd]
    rw [if_neg]
    rintro rfl
    exact hs (by simp)
  refine cut_outcome m idx hattr hne hhole (by omega) h32 ?_ ((dvd_rangeEnd end_ (by omega)).mpr he)
    ?_ ?_ ?_ ⟨hle, hlt, le_rfl⟩
  · rw [hval]
    exact Nat.dvd_mul_left _ _
  · rw [← hb.block]
    refine div_eq_of_le ?_ (by omega : c - 3 ≤ c)
    rw [hval, Nat.mul_div_cancel _ hpos]
  · have hmod := Nat.div_add_mod start.toNat (2 ^ (c - 3))
    have hrem := Nat.mod_lt start.toNat hpos
    have hpow : 2 ^ (c - 3) ≤ 2 ^ 29 := Nat.pow_le_pow_right (by decide) (by omega)
    rw [hstart, hval, Nat.mul_comm]
    omega
  · exact Or.inr ⟨rfl, hstart, rfl⟩

/-- One entry of the body: what is stored is one of the two shapes. -/
theorem generateWith_outcome (m : MpuCommon) (idx : Nat) (hattr : AttrBits attr)
    (hhole : attr ≠ holeAttr attr → MakesHoles hole attr) (hwide : ¬ WideRange start end_) :
    Outcome m idx (regionGenerateWith hole m idx start end_ attr)
      (Shape m idx attr start.toNat (rangeEnd end_)) := by
  unfold regionGenerateWith
  dsimp only
  refine .ite (fun _ => .fail (by decide)) fun hvalid => ?_
  refine .ite (fun h0 => ?_) fun hsize => ?_
  · obtain ⟨rfl, rfl⟩ := eq_zero_of_size_eq_zero hvalid h0
    exact .set fun h5 => .direct (.single hattr h5 le_rfl
      (aligned_covers idx hattr h5 le_rfl (Nat.dvd_zero _)))
  refine .ite (fun hpow => ?_) fun hpow => ?_
  · obtain ⟨h32, hdvd, hend⟩ := aligned_size hvalid hsize hpow.1 hpow.2
    refine .ite (fun _ => .fail (by decide)) fun _ => .set fun h5 => .direct ?_
    refine .single hattr h5 h32.le ?_
    rw [hend]
    exact aligned_covers idx hattr h5 h32.le hdvd
  refine .ite (fun _ => .fail (by decide)) fun h5 => ?_
  have hb := bits_of_range hvalid hsize h5
  have ht := ctz_lt_thirty hvalid hsize hpow hwide
  have h32 := hb.le_32
  refine .ite (fun hsig => ?_) fun h3 => ?_
  · exact (one_block m idx hattr hb ht hsig).mono fun _ => .direct
  refine .ite (fun hsig => ?_) fun h4 => ?_
  · exact (two_blocks m idx hattr hb hsig rfl).mono fun _ => .direct
  refine .ite (fun _ => .fail (by decide)) fun hne => ?_
  refine .ite (fun hs => ?_) fun hs => ?_
  · rw [eq_roundDown_iff start (by omega)] at hs
    exact cut_end m idx hattr hne (hhole hne) hb (by omega) hs rfl
  refine .ite (fun he => ?_) fun _ => .fail (by decide)
  rw [eq_roundDown_iff start (by omega)] at hs
  rw [eq_roundDown_iff end_ (by omega)] at he
  exact cut_start m idx hattr hne (hhole hne) hb (by omega) hs he rfl

end Cut

theorem attrBits_holeAttr (attr : BitVec 32) : AttrBits (holeAttr attr) := by
  intro i hi hi1
  have hone : (1 : BitVec 32).getLsbD i = false := by
    have hne : ¬ i = 0 := by omega
    simp [hne]
  rw [holeAttr, BitVec.getLsbD_and, hone, Bool.and_false]

theorem makesHoles_generateWith (hole : Generate) (attr : BitVec 32) :
    MakesHoles (regionGenerateWith hole) attr := by
  intro m idx holeStart holeEnd hsmall
  have hwide : ¬ WideRange holeStart holeEnd := by
    rintro (⟨rfl, rfl⟩ | ⟨rfl, rfl⟩ | ⟨rfl, rfl⟩) <;> revert hsmall <;> decide
  refine (generateWith_outcome m idx (attrBits_holeAttr attr)
    (fun hne => absurd (holeAttr_idem attr) hne) hwide).mono ?_
  intro rs hshape
  cases hshape with
  | direct span => exact span
  | cut hne => exact absurd (holeAttr_idem attr) hne

theorem generate_outcome (m : MpuCommon) (idx : Nat) {start end_ attr : BitVec 32}
    (hattr : AttrBits attr) (hwide : ¬ WideRange start end_) :
    Outcome m idx (regionGenerate m idx start end_ attr)
      (Shape m idx attr start.toNat (rangeEnd end_)) :=
  generateWith_outcome m idx hattr (fun _ => makesHoles_generateWith _ attr) hwide

end Plo.Hal
