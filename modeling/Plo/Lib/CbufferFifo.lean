import Plo.Lib.Cbuffer

/-!
The circular buffer as a bounded queue. The three cases of head, tail and the
full flag are one invariant: the queue lies on the ring from the head on, the tail
is where it ends, and the flag tells a full ring from an empty one. A bulk
operation and its byte operations both put the same list on the ring. In sizes
of `w` bits this needs that twice the capacity does not wrap.
-/
namespace Plo.Lib.Cbuf
variable {w : Nat}

theorem toNat_szMin (a b : BitVec w) : (szMin a b).toNat = min a.toNat b.toNat := by
  simp only [szMin, gt_iff_lt, BitVec.lt_def]
  split <;> omega

theorem toSize_toInt {x : BitVec w} (hx : x.toNat < 2 ^ 31) :
    toSize w (toInt x) = x := by
  have hnat : (x.setWidth 32).toNat = x.toNat := by
    rw [BitVec.toNat_setWidth, Nat.mod_eq_of_lt (by omega)]
  have hmsb : (x.setWidth 32).msb = false := by
    rw [BitVec.msb_eq_false_iff_two_mul_lt, hnat]
    omega
  refine BitVec.eq_of_toNat_eq ?_
  rw [toSize, toInt, BitVec.signExtend_eq_setWidth_of_msb_false hmsb, BitVec.toNat_setWidth, hnat,
    Nat.mod_eq_of_lt x.isLt]

/-- The buffer holds the queue. -/
structure Stores (buf : Cbuffer w) (q : List UInt8) : Prop where
  head_lt : buf.head.toNat < buf.capacity.toNat
  size_le : q.length ≤ buf.capacity.toNat
  tail_eq : buf.tail.toNat = (buf.head.toNat + q.length) % buf.capacity.toNat
  full_iff : buf.full = true ↔ q.length = buf.capacity.toNat
  contents : q = window buf.capacity.toNat buf.data buf.head.toNat q.length

/-- The buffer with a list put on the ring behind its tail. -/
def push (buf : Cbuffer w) (data : List UInt8) : Cbuffer w :=
  let tail := BitVec.ofNat w ((buf.tail.toNat + data.length) % buf.capacity.toNat)
  { buf with data := ringWrite buf.capacity.toNat buf.data buf.tail.toNat data, tail := tail,
             full := if data = [] then buf.full else tail == buf.head }

/-- The buffer with `n` bytes taken from the ring at its head. -/
def pop (buf : Cbuffer w) (n : Nat) : Cbuffer w :=
  { buf with head := BitVec.ofNat w ((buf.head.toNat + n) % buf.capacity.toNat),
             full := if n = 0 then buf.full else false }

section Ring
variable {buf : Cbuffer w} {q : List UInt8}

theorem toNat_ofNat_mod (hcap : 0 < buf.capacity.toNat) (n : Nat) :
    (BitVec.ofNat w (n % buf.capacity.toNat)).toNat = n % buf.capacity.toNat := by
  have hlt := Nat.mod_lt n hcap
  rw [BitVec.toNat_ofNat, Nat.mod_eq_of_lt (hlt.trans buf.capacity.isLt)]

theorem Stores.cap_pos (h : Stores buf q) : 0 < buf.capacity.toNat :=
  Nat.zero_lt_of_lt h.head_lt

theorem Stores.tail_lt (h : Stores buf q) : buf.tail.toNat < buf.capacity.toNat := by
  rw [h.tail_eq]
  exact Nat.mod_lt _ h.cap_pos

/-- The three cases of the encoding. -/
theorem Stores.tail_cases (h : Stores buf q) :
    (buf.full = true ∧ q.length = buf.capacity.toNat ∧ buf.tail.toNat = buf.head.toNat) ∨
    buf.full = false ∧
      (buf.head.toNat ≤ buf.tail.toNat ∧ q.length = buf.tail.toNat - buf.head.toNat ∨
        buf.tail.toNat < buf.head.toNat ∧
          q.length = buf.capacity.toNat - buf.head.toNat + buf.tail.toNat) := by
  have htail := h.tail_eq
  rw [mod_ring h.head_lt h.size_le] at htail
  have hhead := h.head_lt
  have hsize := h.size_le
  cases hfull : buf.full with
  | true =>
      have hlen := h.full_iff.mp hfull
      refine Or.inl ⟨rfl, hlen, ?_⟩
      rw [if_neg (by omega)] at htail
      omega
  | false =>
      have hlen : q.length ≠ buf.capacity.toNat := by
        intro heq
        rw [h.full_iff.mpr heq] at hfull
        cases hfull
      refine Or.inr ⟨rfl, ?_⟩
      split at htail <;> omega

theorem ofNat_tail_mod (h : Stores buf q) :
    BitVec.ofNat w (buf.tail.toNat % buf.capacity.toNat) = buf.tail := by
  rw [Nat.mod_eq_of_lt h.tail_lt, BitVec.ofNat_toNat, BitVec.setWidth_eq]

theorem push_nil (h : Stores buf q) : push buf [] = buf := by
  simp only [push, ringWrite, List.length_nil, Nat.add_zero, if_pos, ofNat_tail_mod h]

theorem push_push (h : Stores buf q) (xs ys : List UInt8) :
    push (push buf xs) ys = push buf (xs ++ ys) := by
  have htail : (BitVec.ofNat w ((buf.tail.toNat + xs.length) % buf.capacity.toNat)).toNat =
      (buf.tail.toNat + xs.length) % buf.capacity.toNat := toNat_ofNat_mod h.cap_pos _
  simp only [push, htail, ringWrite_mod, Nat.mod_add_mod, List.length_append, Nat.add_assoc,
    ringWrite_append, List.append_eq_nil_iff]
  cases ys with
  | nil => simp
  | cons y ys => simp

theorem stores_push (h : Stores buf q) (data : List UInt8)
    (hle : data.length ≤ buf.capacity.toNat - q.length) : Stores (push buf data) (q ++ data) := by
  have hsize := h.size_le
  have htail : (push buf data).tail.toNat =
      (buf.head.toNat + (q ++ data).length) % buf.capacity.toNat := by
    simp only [push]
    rw [toNat_ofNat_mod h.cap_pos, h.tail_eq, Nat.mod_add_mod, List.length_append, Nat.add_assoc]
  have hlen : (q ++ data).length ≤ buf.capacity.toNat := by
    rw [List.length_append]
    omega
  refine ⟨h.head_lt, hlen, htail, ?_, ?_⟩
  · by_cases hnil : data = []
    · subst hnil
      rw [push_nil h, List.append_nil]
      exact h.full_iff
    · have hpos := List.length_pos_iff.mpr hnil
      have hfull : (push buf data).full = ((push buf data).tail == buf.head) := by
        simp only [push, if_neg hnil]
      rw [hfull, beq_iff_eq, ← BitVec.toNat_inj, htail, mod_ring h.head_lt hlen]
      have hhead := h.head_lt
      rw [List.length_append] at hlen ⊢
      simp only [push]
      split <;> omega
  · simp only [push]
    rw [h.tail_eq, ringWrite_mod, List.length_append, window_ringWrite _ _ _ _ (by omega),
      ← h.contents]

theorem two_capacity_le (h : Stores buf q) (hcap : buf.capacity.toNat ≤ 2 ^ (w - 1)) :
    2 * buf.capacity.toNat ≤ 2 ^ w := by
  have hw : w ≠ 0 := by
    intro h0
    subst h0
    have := h.cap_pos
    have := buf.capacity.isLt
    omega
  have hpow : 2 ^ w = 2 * 2 ^ (w - 1) := by
    rw [← Nat.pow_succ', Nat.succ_eq_add_one, Nat.sub_add_cancel (by omega)]
  omega

theorem toNat_one (h : Stores buf q) (hcap : buf.capacity.toNat ≤ 2 ^ (w - 1)) :
    (1 : BitVec w).toNat = 1 := by
  have htwo := two_capacity_le h hcap
  have hpos := h.cap_pos
  have hlt : 1 < 2 ^ w := by omega
  rw [BitVec.ofNat_eq_ofNat, BitVec.toNat_ofNat, Nat.mod_eq_of_lt hlt]

/-- A position moved on along the ring, in sizes. -/
theorem advance_eq (h : Stores buf q) (hcap : buf.capacity.toNat ≤ 2 ^ (w - 1))
    {p x : BitVec w} (hp : p.toNat < buf.capacity.toNat) (hx : x.toNat ≤ buf.capacity.toNat) :
    (p + x) % buf.capacity = BitVec.ofNat w ((p.toNat + x.toNat) % buf.capacity.toNat) := by
  have htwo := two_capacity_le h hcap
  refine BitVec.eq_of_toNat_eq ?_
  rw [toNat_ofNat_mod h.cap_pos, BitVec.toNat_umod, BitVec.toNat_add_of_lt (by omega)]

/-- What a copy to the ring has done when it ends. -/
def CopiedIn (buf : Cbuffer w) (data : List UInt8) (n : Nat) (r : (Nat → UInt8) × BitVec 32) :
    Prop :=
  toSize w r.2 = BitVec.ofNat w n ∧
    r.1 = ringWrite buf.capacity.toNat buf.data buf.tail.toNat (data.take n)

theorem eq_ofNat {x : BitVec w} {n : Nat} (h : x.toNat = n) : x = BitVec.ofNat w n := by
  rw [← h, BitVec.ofNat_toNat, BitVec.setWidth_eq]

/-- A copy of two pieces: the first one fills its room. -/
theorem szMin_pieces {sz a : BitVec w} (h : szMin sz a < sz) (b : BitVec w) :
    (szMin sz a).toNat = a.toNat ∧
      (szMin sz a + szMin (sz - szMin sz a) b).toNat =
        (szMin sz a).toNat + (szMin (sz - szMin sz a) b).toNat ∧
      (szMin sz a).toNat + (szMin (sz - szMin sz a) b).toNat =
        min sz.toNat (a.toNat + b.toNat) := by
  have hlt : (szMin sz a).toNat < sz.toNat := h
  have hfirst := toNat_szMin sz a
  have hrest : (sz - szMin sz a).toNat = sz.toNat - (szMin sz a).toNat :=
    BitVec.toNat_sub_of_le (BitVec.le_of_lt h)
  have hsecond := toNat_szMin (sz - szMin sz a) b
  rw [hrest] at hsecond
  have hsz := sz.isLt
  exact ⟨by omega, BitVec.toNat_add_of_lt (by omega), by omega⟩

/-- The free cells are those between the tail and the head. -/
theorem copyIn_linear (h : Stores buf q) (hlt : buf.head > buf.tail) {data : List UInt8}
    {sz : BitVec w} (hsz : sz.toNat = data.length) (hdata : data.length < 2 ^ 31) :
    CopiedIn buf data (min data.length (buf.head.toNat - buf.tail.toNat)) (copyIn buf data sz) := by
  have hsub : (buf.head - buf.tail).toNat = buf.head.toNat - buf.tail.toNat :=
    BitVec.toNat_sub_of_le (BitVec.le_of_lt hlt)
  have hmin := toNat_szMin sz (buf.head - buf.tail)
  rw [hsz, hsub] at hmin
  have hbytes := toSize_toInt (x := szMin sz (buf.head - buf.tail)) (by omega)
  simp only [copyIn, if_pos hlt, CopiedIn, hbytes, hmin]
  refine ⟨eq_ofNat hmin, ?_⟩
  have hhead := h.head_lt
  have hlt' : buf.tail.toNat < buf.head.toNat := hlt
  rw [ringWrite_eq_overlay]
  rw [List.length_take]
  omega

/-- The free cells are those from the tail to the end and those before the head. -/
theorem copyIn_wrapped (h : Stores buf q) (hle : ¬ buf.head > buf.tail) {data : List UInt8}
    {sz : BitVec w} (hsz : sz.toNat = data.length) (hdata : data.length < 2 ^ 31) :
    CopiedIn buf data (min data.length (buf.capacity.toNat - buf.tail.toNat + buf.head.toNat))
      (copyIn buf data sz) := by
  have htail := h.tail_lt
  have hsub : (buf.capacity - buf.tail).toNat = buf.capacity.toNat - buf.tail.toNat :=
    BitVec.toNat_sub_of_le htail.le
  have hmin := toNat_szMin sz (buf.capacity - buf.tail)
  rw [hsz, hsub] at hmin
  have hbytes := toSize_toInt (x := szMin sz (buf.capacity - buf.tail)) (by omega)
  simp only [copyIn, if_neg hle, hbytes]
  have hfirst : overlay buf.data buf.tail.toNat (data.take (szMin sz (buf.capacity - buf.tail)).toNat) =
      ringWrite buf.capacity.toNat buf.data buf.tail.toNat
        (data.take (szMin sz (buf.capacity - buf.tail)).toNat) := by
    rw [ringWrite_eq_overlay]
    rw [List.length_take]
    omega
  by_cases hmore : szMin sz (buf.capacity - buf.tail) < sz ∧ buf.head ≠ 0
  · obtain ⟨hx, hsum, hn⟩ := szMin_pieces hmore.1 buf.head
    rw [hsz, hsub] at hn
    simp only [if_pos hmore, CopiedIn, ← hn]
    rw [toSize_toInt (by omega), hfirst]
    refine ⟨eq_ofNat hsum, ?_⟩
    generalize szMin (sz - szMin sz (buf.capacity - buf.tail)) buf.head = y at hsum hn
    generalize szMin sz (buf.capacity - buf.tail) = x at hmin hx hsum hn
    have hend : (buf.tail.toNat + (data.take x.toNat).length) % buf.capacity.toNat = 0 := by
      have hcap : buf.tail.toNat + (data.take x.toNat).length = buf.capacity.toNat := by
        rw [List.length_take]
        omega
      rw [hcap, Nat.mod_self]
    have hhead := h.head_lt
    rw [List.take_add, ringWrite_append,
      ← ringWrite_mod _ (buf.tail.toNat + (data.take x.toNat).length), hend]
    refine (ringWrite_eq_overlay _ ?_).symm
    rw [List.length_take, List.length_drop]
    omega
  · have hn : min data.length (buf.capacity.toNat - buf.tail.toNat + buf.head.toNat) =
        (szMin sz (buf.capacity - buf.tail)).toNat := by
      by_cases hlt : szMin sz (buf.capacity - buf.tail) < sz
      · have hhead : buf.head = 0 := by
          by_contra hne
          exact hmore ⟨hlt, hne⟩
        have hzero : buf.head.toNat = 0 := by rw [hhead]; simp
        omega
      · rw [BitVec.lt_def, hsz] at hlt
        omega
    simp only [if_neg hmore, CopiedIn, hn]
    exact ⟨by rw [hbytes]; exact eq_ofNat rfl, hfirst⟩

theorem length_le_of_full (h : Stores buf q) (hfull : buf.full = true) :
    buf.capacity.toNat - q.length = 0 := by
  rw [h.full_iff.mp hfull, Nat.sub_self]

/-- `lib_cbufWrite` puts what fits on the ring. -/
theorem write_eq (hw : 31 ≤ w) (h : Stores buf q) (hcap : buf.capacity.toNat ≤ 2 ^ (w - 1))
    {data : List UInt8} (hdata : data.length < 2 ^ 31) :
    write buf data = (push buf (data.take (min data.length (buf.capacity.toNat - q.length))),
      BitVec.ofNat w (min data.length (buf.capacity.toNat - q.length))) := by
  have hsz : (BitVec.ofNat w data.length).toNat = data.length := by
    have := Nat.pow_le_pow_right (n := 2) (by omega) hw
    rw [BitVec.toNat_ofNat, Nat.mod_eq_of_lt (by omega)]
  simp only [write]
  generalize BitVec.ofNat w data.length = sz at hsz
  have hsz0 : sz = 0 ↔ data.length = 0 := by
    rw [← BitVec.toNat_inj, hsz]
    simp
  by_cases hstop : sz = 0 ∨ buf.full
  · have hn : min data.length (buf.capacity.toNat - q.length) = 0 := by
      cases hstop with
      | inl hzero => rw [hsz0.mp hzero, Nat.zero_min]
      | inr hfull => rw [length_le_of_full h hfull, Nat.min_zero]
    rw [if_pos hstop, hn, List.take_zero, push_nil h]
    rfl
  · rw [if_neg hstop]
    simp only [not_or, hsz0] at hstop
    have hfree : CopiedIn buf data (min data.length (buf.capacity.toNat - q.length))
        (copyIn buf data sz) := by
      have hhead := h.head_lt
      cases h.tail_cases with
      | inl hfull => exact absurd hfull.1 hstop.2
      | inr hcases =>
          by_cases hlt : buf.head > buf.tail
          · have hlt' : buf.tail.toNat < buf.head.toNat := hlt
            rw [show buf.capacity.toNat - q.length = buf.head.toNat - buf.tail.toNat by omega]
            exact copyIn_linear h hlt hsz hdata
          · have hge : ¬ buf.tail.toNat < buf.head.toNat := hlt
            have htail := h.tail_lt
            rw [show buf.capacity.toNat - q.length =
              buf.capacity.toNat - buf.tail.toNat + buf.head.toNat by omega]
            exact copyIn_wrapped h hlt hsz hdata
    have hpos : 0 < buf.capacity.toNat - q.length := by
      have := h.size_le
      have : q.length ≠ buf.capacity.toNat := fun heq => hstop.2 (h.full_iff.mpr heq)
      omega
    generalize hn : min data.length (buf.capacity.toNat - q.length) = n at hfree
    have hlen : (data.take n).length = n := List.length_take_of_le (by omega)
    have hne : data.take n ≠ [] := by
      rw [← List.length_pos_iff, hlen]
      omega
    have hxn : (BitVec.ofNat w n).toNat = n := by
      have := sz.isLt
      rw [BitVec.toNat_ofNat, Nat.mod_eq_of_lt (by omega)]
    have hadv := advance_eq (x := BitVec.ofNat w n) h hcap h.tail_lt (by omega)
    rw [hxn] at hadv
    simp only [hfree.1, hfree.2, hadv, push, hlen, if_neg hne]

theorem writeByte_eq (h : Stores buf q) (hcap : buf.capacity.toNat ≤ 2 ^ (w - 1)) (c : UInt8) :
    writeByte buf c = (push buf ([c].take (min 1 (buf.capacity.toNat - q.length))),
      BitVec.ofNat w (min 1 (buf.capacity.toNat - q.length))) := by
  simp only [writeByte]
  by_cases hfull : buf.full
  · rw [if_pos hfull, length_le_of_full h hfull, Nat.min_zero, List.take_zero, push_nil h]
    rfl
  · rw [if_neg hfull]
    have hsize := h.size_le
    have : q.length ≠ buf.capacity.toNat := fun heq => hfull (h.full_iff.mpr heq)
    rw [Nat.min_eq_left (by omega), List.take_of_length_le (Nat.le_refl 1)]
    have hcap0 := h.cap_pos
    have hadv := advance_eq (x := 1) h hcap h.tail_lt (by rw [toNat_one h hcap]; omega)
    rw [toNat_one h hcap] at hadv
    have htail := h.tail_lt
    simp only [hadv, push, List.length_singleton, if_neg (List.cons_ne_nil c [])]
    rw [ringWrite_eq_overlay _ (by simp; omega)]
    rfl

theorem pop_zero (h : Stores buf q) : pop buf 0 = buf := by
  simp only [pop, Nat.add_zero, if_pos, Nat.mod_eq_of_lt h.head_lt, BitVec.ofNat_toNat,
    BitVec.setWidth_eq]

theorem pop_pop (h : Stores buf q) (m n : Nat) : pop (pop buf m) n = pop buf (m + n) := by
  have hhead : (BitVec.ofNat w ((buf.head.toNat + m) % buf.capacity.toNat)).toNat =
      (buf.head.toNat + m) % buf.capacity.toNat := toNat_ofNat_mod h.cap_pos _
  simp only [pop, hhead, Nat.mod_add_mod, Nat.add_assoc]
  cases n with
  | zero => simp
  | succ n => simp

theorem stores_pop (h : Stores buf q) {n : Nat} (hle : n ≤ q.length) :
    Stores (pop buf n) (q.drop n) := by
  have hhead : (pop buf n).head.toNat = (buf.head.toNat + n) % buf.capacity.toNat :=
    toNat_ofNat_mod h.cap_pos _
  have hsize := h.size_le
  have hlen : (q.drop n).length = q.length - n := List.length_drop
  refine ⟨?_, ?_, ?_, ?_, ?_⟩
  · rw [hhead]
    exact Nat.mod_lt _ h.cap_pos
  · rw [hlen]
    exact Nat.le_trans (Nat.sub_le _ _) h.size_le
  · rw [hhead, hlen]
    simp only [pop]
    rw [Nat.mod_add_mod, h.tail_eq, Nat.add_assoc, Nat.add_sub_cancel' hle]
  · cases n with
    | zero =>
        rw [pop_zero h, List.drop_zero]
        exact h.full_iff
    | succ n =>
        rw [hlen]
        simp only [pop, Nat.add_one_ne_zero, if_false]
        constructor
        · intro hfalse
          cases hfalse
        · intro heq
          omega
  · rw [hhead, hlen]
    simp only [pop]
    rw [window_mod, ← window_drop, ← h.contents]

/-- What a copy from the ring has done when it ends. -/
def CopiedOut (buf : Cbuffer w) (n : Nat) (r : List UInt8 × BitVec 32) : Prop :=
  toSize w r.2 = BitVec.ofNat w n ∧
    r.1 = window buf.capacity.toNat buf.data buf.head.toNat n

/-- The bytes stored are those between the head and the tail. -/
theorem copyOut_linear (h : Stores buf q) (hlt : buf.tail > buf.head) {sz : BitVec w}
    (hsz : sz.toNat < 2 ^ 31) :
    CopiedOut buf (min sz.toNat (buf.tail.toNat - buf.head.toNat)) (copyOut buf sz) := by
  have hsub : (buf.tail - buf.head).toNat = buf.tail.toNat - buf.head.toNat :=
    BitVec.toNat_sub_of_le (BitVec.le_of_lt hlt)
  have hmin := toNat_szMin sz (buf.tail - buf.head)
  rw [hsub] at hmin
  have hbytes := toSize_toInt (x := szMin sz (buf.tail - buf.head)) (by omega)
  simp only [copyOut, if_pos hlt, CopiedOut, hbytes, hmin]
  refine ⟨eq_ofNat hmin, ?_⟩
  have htail := h.tail_lt
  have hlt' : buf.head.toNat < buf.tail.toNat := hlt
  rw [window_eq_slice _ (by omega)]

/-- The bytes stored are those from the head to the end and those before the tail. -/
theorem copyOut_wrapped (h : Stores buf q) (hle : ¬ buf.tail > buf.head) {sz : BitVec w}
    (hsz : sz.toNat < 2 ^ 31) :
    CopiedOut buf (min sz.toNat (buf.capacity.toNat - buf.head.toNat + buf.tail.toNat))
      (copyOut buf sz) := by
  have hhead := h.head_lt
  have hsub : (buf.capacity - buf.head).toNat = buf.capacity.toNat - buf.head.toNat :=
    BitVec.toNat_sub_of_le hhead.le
  have hmin := toNat_szMin sz (buf.capacity - buf.head)
  rw [hsub] at hmin
  have hbytes := toSize_toInt (x := szMin sz (buf.capacity - buf.head)) (by omega)
  simp only [copyOut, if_neg hle, hbytes]
  have hfirst : slice buf.data buf.head.toNat (szMin sz (buf.capacity - buf.head)).toNat =
      window buf.capacity.toNat buf.data buf.head.toNat
        (szMin sz (buf.capacity - buf.head)).toNat :=
    (window_eq_slice _ (by omega)).symm
  by_cases hmore : szMin sz (buf.capacity - buf.head) < sz
  · obtain ⟨hx, hsum, hn⟩ := szMin_pieces hmore buf.tail
    rw [hsub] at hn
    simp only [if_pos hmore, CopiedOut, ← hn]
    rw [toSize_toInt (by omega), hfirst]
    refine ⟨eq_ofNat hsum, ?_⟩
    generalize szMin (sz - szMin sz (buf.capacity - buf.head)) buf.tail = y at hsum hn
    generalize szMin sz (buf.capacity - buf.head) = x at hmin hx hsum hn
    have hend : (buf.head.toNat + x.toNat) % buf.capacity.toNat = 0 := by
      rw [show buf.head.toNat + x.toNat = buf.capacity.toNat by omega, Nat.mod_self]
    have htail := h.tail_lt
    have hsecond : window buf.capacity.toNat buf.data 0 y.toNat = slice buf.data 0 y.toNat :=
      window_eq_slice _ (by omega)
    rw [window_add, ← window_mod _ (buf.head.toNat + x.toNat), hend, hsecond]
  · have hn : min sz.toNat (buf.capacity.toNat - buf.head.toNat + buf.tail.toNat) =
        (szMin sz (buf.capacity - buf.head)).toNat := by
      rw [BitVec.lt_def] at hmore
      omega
    simp only [if_neg hmore, CopiedOut, hn]
    exact ⟨by rw [hbytes]; exact eq_ofNat rfl, hfirst⟩

theorem empty_iff (h : Stores buf q) :
    (buf.head = buf.tail ∧ ¬ buf.full) ↔ q.length = 0 := by
  have hcases := h.tail_cases
  have hpos := h.cap_pos
  have hhead := h.head_lt
  rw [← BitVec.toNat_inj, Bool.not_eq_true]
  cases hcases with
  | inl hfull =>
      rw [hfull.1]
      simp only [Bool.true_eq_false, and_false, false_iff]
      omega
  | inr hcases =>
      rw [hcases.1]
      simp only [and_true]
      omega

/-- `lib_cbufRead` takes the bytes at the head. -/
theorem read_eq (h : Stores buf q) (hcap : buf.capacity.toNat ≤ 2 ^ (w - 1)) {sz : BitVec w}
    (hsz : sz.toNat < 2 ^ 31) :
    read buf sz = (pop buf (min sz.toNat q.length), BitVec.ofNat w (min sz.toNat q.length),
      window buf.capacity.toNat buf.data buf.head.toNat (min sz.toNat q.length)) := by
  have hsz0 : sz = 0 ↔ sz.toNat = 0 := by
    rw [← BitVec.toNat_inj]
    simp
  simp only [read, empty_iff h, hsz0]
  by_cases hstop : sz.toNat = 0 ∨ q.length = 0
  · have hn : min sz.toNat q.length = 0 := by omega
    rw [if_pos hstop, hn, pop_zero h]
    rfl
  · rw [if_neg hstop]
    have hstored : CopiedOut buf (min sz.toNat q.length) (copyOut buf sz) := by
      have htail := h.tail_lt
      have hhead := h.head_lt
      by_cases hlt : buf.tail > buf.head
      · have hlt' : buf.head.toNat < buf.tail.toNat := hlt
        have hlen : q.length = buf.tail.toNat - buf.head.toNat := by
          cases h.tail_cases <;> omega
        rw [hlen]
        exact copyOut_linear h hlt hsz
      · have hge : ¬ buf.head.toNat < buf.tail.toNat := hlt
        have hlen : q.length = buf.capacity.toNat - buf.head.toNat + buf.tail.toNat := by
          cases h.tail_cases <;> omega
        rw [hlen]
        exact copyOut_wrapped h hlt hsz
    have hsize := h.size_le
    generalize hn : min sz.toNat q.length = n at hstored
    have hxn : (BitVec.ofNat w n).toNat = n := by
      have := sz.isLt
      rw [BitVec.toNat_ofNat, Nat.mod_eq_of_lt (by omega)]
    have hadv := advance_eq (x := BitVec.ofNat w n) h hcap h.head_lt (by omega)
    rw [hxn] at hadv
    simp only [hstored.1, hstored.2, hadv, pop, if_neg (show n ≠ 0 by omega)]

theorem readByte_eq (h : Stores buf q) (hcap : buf.capacity.toNat ≤ 2 ^ (w - 1)) :
    readByte buf = (pop buf (min 1 q.length), BitVec.ofNat w (min 1 q.length),
      window buf.capacity.toNat buf.data buf.head.toNat (min 1 q.length)) := by
  simp only [readByte, empty_iff h]
  by_cases hstop : q.length = 0
  · rw [if_pos hstop, hstop, Nat.min_zero, pop_zero h]
    rfl
  · rw [if_neg hstop, Nat.min_eq_left (by omega)]
    have hpos := h.cap_pos
    have hadv := advance_eq (x := 1) h hcap h.head_lt (by rw [toNat_one h hcap]; omega)
    rw [toNat_one h hcap] at hadv
    have hhead := h.head_lt
    rw [hadv, window_eq_slice _ (by omega)]
    simp only [pop, Nat.one_ne_zero, if_false, slice, List.range_one, List.map_singleton,
      Nat.add_zero]
    rfl

/-- The byte writes of a list put on the ring what the bulk write does. -/
theorem writeBytes_eq (h : Stores buf q) (hcap : buf.capacity.toNat ≤ 2 ^ (w - 1))
    (data : List UInt8) :
    writeBytes buf data = (push buf (data.take (min data.length (buf.capacity.toNat - q.length))),
      min data.length (buf.capacity.toNat - q.length)) := by
  induction data generalizing buf q with
  | nil => rw [writeBytes, List.take_nil, push_nil h, List.length_nil, Nat.zero_min]
  | cons c data ih =>
      have hbyte := writeByte_eq h hcap c
      have hsize := h.size_le
      by_cases hfree : buf.capacity.toNat - q.length = 0
      · rw [hfree, Nat.min_zero, List.take_zero, push_nil h] at hbyte ⊢
        have hrest := ih h hcap
        rw [hfree, Nat.min_zero, List.take_zero, push_nil h] at hrest
        rw [writeBytes, hbyte, hrest]
        simp
      · rw [Nat.min_eq_left (by omega), List.take_of_length_le (Nat.le_refl 1)] at hbyte
        have hstores := stores_push h [c] (by simp; omega)
        have hrest := ih hstores hcap
        have hroom : (push buf [c]).capacity.toNat - (q ++ [c]).length =
            buf.capacity.toNat - q.length - 1 := by
          rw [List.length_append, Nat.sub_add_eq]
          rfl
        rw [hroom, push_push h] at hrest
        have hn : min (c :: data).length (buf.capacity.toNat - q.length) =
            min data.length (buf.capacity.toNat - q.length - 1) + 1 := by
          rw [List.length_cons]
          omega
        have hone := toNat_one h hcap
        rw [writeBytes, hbyte, hrest, hn, List.take_succ_cons]
        rw [BitVec.ofNat_eq_ofNat] at hone
        simp only [hone, List.singleton_append, Nat.add_comm 1]

theorem readBytes_eq (h : Stores buf q) (hcap : buf.capacity.toNat ≤ 2 ^ (w - 1)) (sz : Nat) :
    readBytes buf sz = (pop buf (min sz q.length), ⟨min sz q.length,
      window buf.capacity.toNat buf.data buf.head.toNat (min sz q.length)⟩) := by
  induction sz generalizing buf q with
  | zero =>
      rw [readBytes, Nat.zero_min, pop_zero h]
      rfl
  | succ sz ih =>
      have hbyte := readByte_eq h hcap
      by_cases hempty : q.length = 0
      · rw [hempty, Nat.min_zero, pop_zero h] at hbyte ⊢
        have hrest := ih h hcap
        rw [hempty, Nat.min_zero, pop_zero h] at hrest
        rw [readBytes, hbyte, hrest]
        simp [window]
      · rw [Nat.min_eq_left (by omega)] at hbyte
        have hstores := stores_pop h (n := 1) (by omega)
        have hrest := ih hstores hcap
        rw [List.length_drop, pop_pop h] at hrest
        have hn : min (sz + 1) q.length = 1 + min sz (q.length - 1) := by omega
        have hone := toNat_one h hcap
        rw [BitVec.ofNat_eq_ofNat] at hone
        have hhead : (pop buf 1).head.toNat = (buf.head.toNat + 1) % buf.capacity.toNat :=
          toNat_ofNat_mod h.cap_pos _
        have hwin (n : Nat) : window (pop buf 1).capacity.toNat (pop buf 1).data
            ((buf.head.toNat + 1) % buf.capacity.toNat) n =
              window buf.capacity.toNat buf.data (buf.head.toNat + 1) n := window_mod _ _ _
        rw [hhead, hwin] at hrest
        rw [readBytes, hbyte, hrest, hn, window_add]
        simp only [hone]

theorem size_eq (h : Stores buf q) (hcap : buf.capacity.toNat ≤ 2 ^ (w - 1)) :
    (size buf).toNat = q.length := by
  have hcases := h.tail_cases
  have htwo := two_capacity_le h hcap
  have hhead := h.head_lt
  have htail := h.tail_lt
  simp only [size, ← BitVec.toNat_inj]
  by_cases heq : buf.tail.toNat = buf.head.toNat
  · rw [if_pos heq]
    cases hcases with
    | inl hfull =>
        rw [if_pos hfull.1]
        exact hfull.2.1.symm
    | inr hcases =>
        rw [if_neg (by simp [hcases.1])]
        simp only [BitVec.ofNat_eq_ofNat, BitVec.toNat_ofNat, Nat.zero_mod]
        omega
  · rw [if_neg heq, BitVec.toNat_umod]
    by_cases hlt : buf.head.toNat < buf.tail.toNat
    · have hsub : (buf.tail - buf.head).toNat = buf.tail.toNat - buf.head.toNat :=
        BitVec.toNat_sub_of_le hlt.le
      rw [BitVec.toNat_add_of_lt (by omega), hsub, Nat.add_mod_right,
        Nat.mod_eq_of_lt (by omega)]
      omega
    · have hsub : (buf.tail - buf.head).toNat =
          2 ^ w - buf.head.toNat + buf.tail.toNat := by
        rw [BitVec.toNat_sub, Nat.mod_eq_of_lt (by omega)]
      have hadd : (buf.tail - buf.head + buf.capacity).toNat =
          buf.capacity.toNat - buf.head.toNat + buf.tail.toNat := by
        rw [BitVec.toNat_add, hsub, Nat.mod_eq_sub_mod (by omega), Nat.mod_eq_of_lt (by omega)]
        omega
      rw [hadd, Nat.mod_eq_of_lt (by omega)]
      omega

theorem toNat_ofNat_le (buf : Cbuffer w) {n : Nat} (hn : n ≤ buf.capacity.toNat) : (BitVec.ofNat w n).toNat = n := by
  have := buf.capacity.isLt
  rw [BitVec.toNat_ofNat, Nat.mod_eq_of_lt (by omega)]

/-- A step of the buffer and of the queue keeps them together, with equal replies. -/
theorem run_stores (hw : 31 ≤ w) (h : Stores buf q) (hcap : buf.capacity.toNat ≤ 2 ^ (w - 1))
    (op : Op w) (hop : op.Small) :
    Stores (op.run buf).1 (op.queue buf.capacity.toNat q).1 ∧
      (op.run buf).2 = (op.queue buf.capacity.toNat q).2 := by
  have hsize := h.size_le
  have hpush (data : List UInt8) : Stores
      (push buf (data.take (min data.length (buf.capacity.toNat - q.length))))
      (q ++ data.take (min data.length (buf.capacity.toNat - q.length))) := by
    refine stores_push h _ ?_
    rw [List.length_take]
    omega
  have hpop (sz : Nat) : Stores (pop buf (min sz q.length)) (q.drop sz) ∧
      window buf.capacity.toNat buf.data buf.head.toNat (min sz q.length) = q.take sz := by
    refine ⟨?_, ?_⟩
    · have hdrop : q.drop sz = q.drop (min sz q.length) := by
        by_cases hle : sz ≤ q.length
        · rw [Nat.min_eq_left hle]
        · rw [Nat.min_eq_right (by omega), List.drop_length, List.drop_of_length_le (by omega)]
      rw [hdrop]
      exact stores_pop h (Nat.min_le_right _ _)
    · rw [← window_take, ← h.contents]
  cases op with
  | write data =>
      simp only [Op.run, write_eq hw h hcap hop, Op.queue, enqueue]
      rw [toNat_ofNat_le buf (by omega)]
      exact ⟨hpush data, rfl⟩
  | writeByte data =>
      simp only [Op.run, writeByte_eq h hcap, Op.queue, enqueue]
      rw [toNat_ofNat_le buf (by omega)]
      exact ⟨hpush [data], rfl⟩
  | read sz =>
      simp only [Op.run, read_eq h hcap hop, Op.queue, dequeue]
      rw [toNat_ofNat_le buf (by omega), (hpop sz.toNat).2]
      exact ⟨(hpop sz.toNat).1, rfl⟩
  | readByte =>
      simp only [Op.run, readByte_eq h hcap, Op.queue, dequeue]
      rw [toNat_ofNat_le buf (by omega), (hpop 1).2]
      exact ⟨(hpop 1).1, rfl⟩

theorem behaves_of_stores (hw : 31 ≤ w) (h : Stores buf q)
    (hcap : buf.capacity.toNat ≤ 2 ^ (w - 1)) : Behaves buf q := by
  have hsize := h.size_le
  refine ⟨size_eq h hcap, ?_, fun op hop => (run_stores hw h hcap op hop).2, ?_, ?_⟩
  · rw [← List.length_eq_zero_iff, ← empty_iff h]
    simp [empty]
  · intro data hdata
    rw [write_eq hw h hcap hdata, writeBytes_eq h hcap]
    simp only [toNat_ofNat_le buf (show min data.length (buf.capacity.toNat - q.length) ≤
      buf.capacity.toNat by omega)]
  · intro sz hsz
    rw [read_eq h hcap hsz, readBytes_eq h hcap]
    simp only [toNat_ofNat_le buf (show min sz.toNat q.length ≤ buf.capacity.toNat by omega)]

end Ring

theorem stores_init (data : Nat → UInt8) {capacity : BitVec w} (hpos : 0 < capacity.toNat) :
    Stores (init data capacity) [] := by
  refine ⟨?_, Nat.zero_le _, ?_, ?_, rfl⟩
  · simpa [init] using hpos
  · simp [init]
  · simp only [init, Bool.false_eq_true, List.length_nil, false_iff]
    omega

theorem run_capacity (buf : Cbuffer w) (op : Op w) : (op.run buf).1.capacity = buf.capacity := by
  cases op with
  | write data => simp only [Op.run, write]; split <;> rfl
  | writeByte data => simp only [Op.run, writeByte]; split <;> rfl
  | read sz => simp only [Op.run, read]; split <;> rfl
  | readByte => simp only [Op.run, readByte]; split <;> rfl

theorem isFifo_of_le (hw : 31 ≤ w) {capacity : BitVec w} (hpos : 0 < capacity.toNat)
    (hcap : capacity.toNat ≤ 2 ^ (w - 1)) : IsFifo capacity := by
  intro data state hreach
  have hinv : state.1.capacity = capacity ∧ Stores state.1 state.2 := by
    refine hreach.invariant (I := fun s => s.1.capacity = capacity ∧ Stores s.1 s.2)
      ⟨rfl, stores_init data hpos⟩ ?_
    intro s op hs hop
    have hle : s.1.capacity.toNat ≤ 2 ^ (w - 1) := hs.1 ▸ hcap
    refine ⟨(run_capacity s.1 op).trans hs.1, ?_⟩
    have := (run_stores hw hs.2 hle op hop).1
    rwa [hs.1] at this
  exact behaves_of_stores hw hinv.2 (hinv.1 ▸ hcap)

/-- Byte writes into an empty buffer, as long as they do not fill it. -/
theorem reachable_byteWrites (data : Nat → UInt8) (capacity : BitVec w) (n : Nat)
    (hn : n < capacity.toNat) :
    ∃ s : Cbuffer w × List UInt8,
      Reachable (fun s op => ((Op.run s.1 op).1, (Op.queue capacity.toNat s.2 op).1))
        (fun _ op => op.Small) (init data capacity, []) s ∧
      s.1.capacity = capacity ∧ s.1.head = 0 ∧ s.1.tail.toNat = n ∧ s.1.full = false ∧
      s.2.length = n := by
  induction n with
  | zero => exact ⟨_, .init, rfl, rfl, by simp [init], rfl, rfl⟩
  | succ n ih =>
      obtain ⟨s, hreach, hcap, hhead, htail, hfull, hlen⟩ := ih (by omega)
      refine ⟨_, .step (i := Op.writeByte 0) hreach trivial, ?_⟩
      have hlt := capacity.isLt
      have hone : (1 : BitVec w).toNat = 1 := by
        have hlt1 : 1 < 2 ^ w := by omega
        rw [BitVec.ofNat_eq_ofNat, BitVec.toNat_ofNat, Nat.mod_eq_of_lt hlt1]
      have htail' : ((s.1.tail + 1) % s.1.capacity).toNat = n + 1 := by
        rw [hcap, BitVec.toNat_umod, BitVec.toNat_add_of_lt (by omega), htail, hone,
          Nat.mod_eq_of_lt hn]
      simp only [Op.run, writeByte, hfull, Op.queue, enqueue]
      refine ⟨hcap, hhead, htail', ?_, ?_⟩
      · simp only [Bool.false_eq_true, if_false, beq_eq_false_iff_ne, ne_eq, ← BitVec.toNat_inj,
          htail', hhead]
        simp
      · rw [List.length_append, List.length_take, List.length_singleton, hlen]
        omega

/-- With one cell free the size of a large buffer wraps. -/
theorem not_isFifo (capacity : BitVec w) (hcap : 2 ^ (w - 1) < capacity.toNat) :
    ¬ IsFifo capacity := by
  intro hfifo
  have hlt := capacity.isLt
  have hpow : 2 ^ w ≤ 2 * 2 ^ (w - 1) := by
    rw [← Nat.pow_succ']
    exact Nat.pow_le_pow_right (by omega) (by omega)
  have hone : 1 ≤ 2 ^ (w - 1) := Nat.one_le_two_pow
  obtain ⟨s, hreach, hcapacity, hhead, htail, -, hlen⟩ :=
    reachable_byteWrites (fun _ => 0) capacity (capacity.toNat - 1) (by omega)
  have hsize := (hfifo _ s hreach).size
  have hne : s.1.tail ≠ s.1.head := by
    intro heq
    rw [heq, hhead] at htail
    simp at htail
    omega
  have hadd : (s.1.tail - s.1.head + s.1.capacity).toNat =
      2 * capacity.toNat - 1 - 2 ^ w := by
    have hzero : s.1.tail - (0 : BitVec w) = s.1.tail := BitVec.sub_zero _
    rw [hhead, hzero, BitVec.toNat_add, htail, hcapacity, Nat.mod_eq_sub_mod (by omega),
      Nat.mod_eq_of_lt (by omega)]
    omega
  rw [Cbuf.size, if_neg hne, BitVec.toNat_umod, hadd, hcapacity, hlen,
    Nat.mod_eq_of_lt (by omega)] at hsize
  omega

/-- A buffer of any size behaves as a bounded queue in every run exactly when it
takes up at most half of what a size can count. -/
theorem isFifo_iff (hw : 32 ≤ w) (capacity : BitVec w) (hpos : 0 < capacity) :
    IsFifo capacity ↔ capacity.toNat ≤ 2 ^ (w - 1) := by
  constructor
  · intro hfifo
    by_contra hcap
    exact not_isFifo capacity (Nat.lt_of_not_le hcap) hfifo
  · intro hcap
    exact isFifo_of_le (by omega) (by simpa [BitVec.lt_def] using hpos) hcap

theorem isFifo_iff_one : (0 : BitVec 32) < 1 ∧ (IsFifo (1 : BitVec 32) ↔ 1 ≤ 2 ^ 31) :=
  ⟨by decide, isFifo_iff (by decide) 1 (by decide)⟩

theorem not_isFifo_large : ¬ IsFifo (0x80000001 : BitVec 32) :=
  not_isFifo _ (by decide)

end Plo.Lib.Cbuf
