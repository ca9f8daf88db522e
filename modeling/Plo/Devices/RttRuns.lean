import Plo.Devices.Rtt

/-!
Both pipes are queues whatever the order of steps. The indices are followed by the
numbers of bytes accepted and taken out since the beginning: a side that works with an
old index of the other one sees fewer bytes or less room than there is, never more.
-/
namespace Plo.Devices.Rtt

theorem mod_inj_of_lt {sz a b c : Nat} (hab : a ≤ b) (hac : a ≤ c) (hb : b < a + sz)
    (hc : c < a + sz) (h : b % sz = c % sz) : b = c := by
  obtain ⟨i, rfl⟩ := Nat.exists_eq_add_of_le hab
  obtain ⟨j, rfl⟩ := Nat.exists_eq_add_of_le hac
  have hmod : i % sz = j % sz := Nat.ModEq.add_left_cancel' a h
  rw [Nat.mod_eq_of_lt (by omega), Nat.mod_eq_of_lt (by omega)] at hmod
  rw [hmod]

theorem next_mod {sz : Nat} (hsz : 0 < sz) (hlt : sz < 2 ^ 32) (n : Nat) :
    next sz (n % sz) = (n + 1) % sz := by
  have hmod := Nat.mod_lt n hsz
  rw [next, Nat.mod_eq_of_lt (show n % sz + 1 < 2 ^ 32 by omega), Nat.mod_add_mod]

/-- The numbers behind the indices of a channel, with the index of the taking side that
the putting side has seen, and the other way round. -/
structure Channel.Inv (sz : Nat) (c : Channel) : Prop where
  wr : c.pipe.wr = c.accepted.length % sz
  rd : c.pipe.rd = c.taken.length % sz
  le : c.taken.length ≤ c.accepted.length
  room : c.accepted.length < c.taken.length + sz
  content : c.accepted =
    c.taken ++ window sz c.pipe.ptr c.taken.length (c.accepted.length - c.taken.length)
  put : ∀ p, c.put = some p → ∃ seen, seen ≤ c.taken.length ∧
    p.rd = (seen + sz - 1) % sz ∧ p.wr = (c.accepted.length + p.moved.length) % sz ∧
    c.accepted.length + p.moved.length < seen + sz ∧
    window sz c.pipe.ptr c.accepted.length p.moved.length = p.moved ∧
    p.free = seen + sz - 1 - c.accepted.length
  get : ∀ g, c.get = some g → ∃ seen, seen ≤ c.accepted.length ∧
    g.wr = seen % sz ∧ g.rd = (c.taken.length + g.moved.length) % sz ∧
    c.taken.length + g.moved.length ≤ seen ∧
    window sz c.pipe.ptr c.taken.length g.moved.length = g.moved

section
variable {sz : Nat} {c : Channel}

theorem used_eq (hsz : 0 < sz) {a t : Nat} {pipe : Pipe} (hwr : pipe.wr = a % sz)
    (hrd : pipe.rd = t % sz) (hle : t ≤ a) (hroom : a < t + sz) : used sz pipe = a - t := by
  have hlt := Nat.mod_lt t hsz
  have hlt' := Nat.mod_lt a hsz
  have hmod : (a % sz + sz - t % sz + t) % sz = (a - t + t) % sz := by
    have hsum : (a % sz + sz - t % sz + t) % sz = (a % sz + sz - t % sz + t % sz) % sz := by
      rw [Nat.add_mod_mod]
    rw [hsum, Nat.sub_add_cancel (by omega), Nat.add_mod_right, Nat.mod_mod,
      Nat.sub_add_cancel hle]
  rw [used, hwr, hrd]
  have h := Nat.ModEq.add_right_cancel' t hmod
  rw [Nat.ModEq, Nat.mod_eq_of_lt (show a - t < sz by omega)] at h
  exact h

/-- Storing behind a window leaves it alone. -/
theorem window_overlay_of_le (mem : Nat → UInt8) {h n m : Nat} (hnm : n ≤ m) (hm : m < sz)
    (b : UInt8) : window sz (overlay mem ((h + m) % sz) [b]) h n = window sz mem h n := by
  have hw := congrArg (List.take n) (window_overlay mem (h := h) hm b)
  rwa [window_take, window_take, Nat.min_eq_left hnm] at hw

theorem Channel.Inv.startPut (h : c.Inv sz) (hsz : 0 < sz) {limit : Nat}
    (hlimit : limit = (c.taken.length % sz + sz - 1) % sz) (data : List UInt8) :
    (startPut sz c limit data).Inv sz := by
  have hused := used_eq hsz h.wr h.rd h.le h.room
  have hle := h.le
  have hroom := h.room
  simp only [Rtt.startPut]
  split
  · exact h
  · refine ⟨h.wr, h.rd, h.le, h.room, h.content, ?_, h.get⟩
    rintro p ⟨⟩
    refine ⟨c.taken.length, le_rfl, ?_, h.wr, ?_, rfl, ?_⟩
    · rw [hlimit, Nat.add_sub_assoc hsz, Nat.add_sub_assoc hsz, Nat.mod_add_mod]
    · simpa using hroom
    · change sz - 1 - used sz c.pipe = c.taken.length + sz - 1 - c.accepted.length
      rw [hused]
      omega

theorem Channel.Inv.startGet (h : c.Inv sz) (count : Nat) : (startGet c count).Inv sz := by
  simp only [Rtt.startGet]
  split
  · exact h
  · refine ⟨h.wr, h.rd, h.le, h.room, h.content, h.put, ?_⟩
    rintro g ⟨⟩
    exact ⟨c.accepted.length, le_rfl, h.wr, h.rd, h.le, rfl⟩

/-- A byte is put where neither a waiting byte nor one already moved lies. -/
theorem Channel.Inv.putByte (h : c.Inv sz) (hsz : 0 < sz) (hlt : sz < 2 ^ 32) {p : Put}
    (hp : c.put = some p) (hne : p.rd ≠ p.wr) (b : UInt8) (todo : List UInt8) :
    (putByte sz c p b todo).Inv sz := by
  obtain ⟨seen, hseen, hrd, hwr, hroom, hmoved, hfree⟩ := h.put p hp
  have hle := h.le
  have hnext : c.accepted.length + p.moved.length + 1 < seen + sz := by
    have : c.accepted.length + p.moved.length ≠ seen + sz - 1 := fun heq => hne (by rw [hrd, hwr, heq])
    omega
  have hcell : p.wr =
      (c.taken.length + (c.accepted.length - c.taken.length + p.moved.length)) % sz := by
    rw [hwr, ← Nat.add_assoc, Nat.add_sub_cancel' hle]
  refine ⟨h.wr, h.rd, hle, h.room, ?_, ?_, ?_⟩
  · simp only [Rtt.putByte]
    rw [hcell, window_overlay_of_le _ (Nat.le_add_right _ _) (by omega)]
    exact h.content
  · rintro p' ⟨⟩
    refine ⟨seen, hseen, hrd, ?_, ?_, ?_, hfree⟩
    · simp only [Rtt.putByte, List.length_append, List.length_singleton]
      rw [hwr, next_mod hsz hlt, Nat.add_assoc]
    · simpa [Rtt.putByte, Nat.add_assoc] using hnext
    · simp only [Rtt.putByte, List.length_append, List.length_singleton]
      rw [hwr, window_add, window_overlay _ (by omega), hmoved]
      simp [window, overlay_self]
  · intro g hg
    obtain ⟨seen', hseen', hwr', hrd', hle', hwin'⟩ := h.get g hg
    refine ⟨seen', hseen', hwr', hrd', hle', ?_⟩
    simp only [Rtt.putByte]
    rw [hcell, window_overlay_of_le _ (by omega) (by omega)]
    exact hwin'

theorem Channel.Inv.getByte (h : c.Inv sz) (hsz : 0 < sz) (hlt : sz < 2 ^ 32) {g : Get}
    (hg : c.get = some g) (hne : g.rd ≠ g.wr) (todo : Nat) : (getByte sz c g todo).Inv sz := by
  obtain ⟨seen, hseen, hwr, hrd, hle, hmoved⟩ := h.get g hg
  refine ⟨h.wr, h.rd, h.le, h.room, h.content, h.put, ?_⟩
  rintro g' ⟨⟩
  refine ⟨seen, hseen, hwr, ?_, ?_, ?_⟩
  · simp only [Rtt.getByte, List.length_append, List.length_singleton]
    rw [hrd, next_mod hsz hlt, Nat.add_assoc]
  · have : c.taken.length + g.moved.length ≠ seen := fun heq => hne (by rw [hrd, hwr, heq])
    simp only [Rtt.getByte, List.length_append, List.length_singleton]
    omega
  · simp only [Rtt.getByte, List.length_append, List.length_singleton]
    rw [window_add, hmoved, hrd]
    simp [window]

/-- The waiting bytes are followed by those a side has just moved in. -/
theorem Channel.Inv.publishPut (h : c.Inv sz) {p : Put} (hp : c.put = some p) :
    (publishPut c p).Inv sz := by
  obtain ⟨seen, hseen, hrd, hwr, hroom, hmoved, hfree⟩ := h.put p hp
  have hle := h.le
  have hlen : (c.accepted ++ p.moved).length = c.accepted.length + p.moved.length :=
    List.length_append
  refine ⟨by rw [← hlen] at hwr; exact hwr, h.rd, ?_, ?_, ?_, nofun, ?_⟩
  · simp only [Rtt.publishPut, hlen]
    omega
  · simp only [Rtt.publishPut, hlen]
    omega
  · simp only [Rtt.publishPut, hlen]
    rw [Nat.sub_add_comm hle, window_add, Nat.add_sub_cancel' hle, hmoved, ← List.append_assoc,
      ← h.content]
  · intro g hg
    obtain ⟨seen', hseen', hrest⟩ := h.get g hg
    refine ⟨seen', ?_, hrest⟩
    simp only [Rtt.publishPut, hlen]
    omega

/-- The first of the waiting bytes are those a side has moved out. -/
theorem Channel.Inv.publishGet (h : c.Inv sz) {g : Get} (hg : c.get = some g) :
    (publishGet c g).Inv sz := by
  obtain ⟨seen, hseen, hwr, hrd, hle, hmoved⟩ := h.get g hg
  have hroom := h.room
  have hlen : (c.taken ++ g.moved).length = c.taken.length + g.moved.length :=
    List.length_append
  refine ⟨h.wr, by rw [← hlen] at hrd; exact hrd, ?_, ?_, ?_, ?_, nofun⟩
  · simp only [Rtt.publishGet, hlen]
    omega
  · simp only [Rtt.publishGet, hlen]
    omega
  · simp only [Rtt.publishGet, hlen]
    have hsplit : c.accepted.length - c.taken.length =
        g.moved.length + (c.accepted.length - (c.taken.length + g.moved.length)) := by omega
    rw [List.append_assoc, ← hmoved, length_window, ← window_add, ← hsplit]
    exact h.content
  · intro p hp
    obtain ⟨seen', hseen', hrest⟩ := h.put p hp
    refine ⟨seen', ?_, hrest⟩
    simp only [Rtt.publishGet, hlen]
    omega

theorem Channel.Inv.rttWrite (h : c.Inv sz) (hsz : 2 ≤ sz) (hle : sz ≤ 2 ^ 31) (data : List UInt8) :
    (rttWrite sz c data).Inv sz := by
  have hlt := Nat.mod_lt c.taken.length (show 0 < sz by omega)
  refine h.startPut (by omega) ?_ data
  rw [h.rd, Nat.mod_eq_of_lt (show c.taken.length % sz + sz - 1 < 2 ^ 32 by omega)]

theorem Channel.Inv.rttWriteNext (h : c.Inv sz) (hsz : 0 < sz) (hlt : sz < 2 ^ 32) :
    (rttWriteNext sz c).Inv sz := by
  simp only [Rtt.rttWriteNext]
  split
  · exact h
  · rename_i p hp
    split
    · exact h.publishPut hp
    · rename_i hend
      split
      · exact h
      · exact h.putByte hsz hlt hp (fun heq => hend (Or.inr heq)) _ _

theorem Channel.Inv.rttReadNext (h : c.Inv sz) (hsz : 0 < sz) (hlt : sz < 2 ^ 32) :
    (rttReadNext sz c).Inv sz := by
  simp only [Rtt.rttReadNext]
  split
  · exact h
  · rename_i g hg
    split
    · exact h.publishGet hg
    · rename_i hend
      exact h.getByte hsz hlt hg (fun heq => hend (Or.inr heq)) _

theorem Channel.Inv.hostAppend (h : c.Inv sz) (hsz : 0 < sz) (data : List UInt8) :
    (hostAppend sz c data).Inv sz :=
  h.startPut hsz (by rw [h.rd]) data

theorem Channel.Inv.hostAppendByte (h : c.Inv sz) (hsz : 0 < sz) (hlt : sz < 2 ^ 32) :
    (hostAppendByte sz c).Inv sz := by
  simp only [Rtt.hostAppendByte]
  split
  · exact h
  · rename_i p hp
    split
    · exact h
    · split
      · exact h
      · rename_i hne
        exact h.putByte hsz hlt hp hne _ _

theorem Channel.Inv.hostAppended (h : c.Inv sz) : (hostAppended c).Inv sz := by
  simp only [Rtt.hostAppended]
  split
  · exact h
  · rename_i p hp
    exact h.publishPut hp

theorem Channel.Inv.hostRemoveByte (h : c.Inv sz) (hsz : 0 < sz) (hlt : sz < 2 ^ 32) :
    (hostRemoveByte sz c).Inv sz := by
  simp only [Rtt.hostRemoveByte]
  split
  · exact h
  · rename_i g hg
    split
    · exact h
    · rename_i hne
      exact h.getByte hsz hlt hg hne _

theorem Channel.Inv.hostRemoved (h : c.Inv sz) : (hostRemoved c).Inv sz := by
  simp only [Rtt.hostRemoved]
  split
  · exact h
  · rename_i g hg
    exact h.publishGet hg

theorem inv_rttInit (hsz : 0 < sz) (ptr : Nat → UInt8) : (rttInit ptr).Inv sz :=
  ⟨(Nat.zero_mod sz).symm, (Nat.zero_mod sz).symm, le_rfl, by simpa [rttInit] using hsz, rfl,
    nofun, nofun⟩

theorem Channel.Inv.fifo (h : c.Inv sz) (hsz : 0 < sz) : c.Fifo sz where
  accepted := by
    rw [used_eq hsz h.wr h.rd h.le h.room, h.rd, window_mod]
    exact h.content
  prefixed := by
    intro g hg
    obtain ⟨seen, hseen, -, -, hle, hmoved⟩ := h.get g hg
    obtain ⟨rest, hrest⟩ := Nat.exists_eq_add_of_le
      (show g.moved.length ≤ c.accepted.length - c.taken.length by omega)
    refine ⟨window sz c.pipe.ptr (c.taken.length + g.moved.length) rest, ?_⟩
    rw [List.append_assoc]
    nth_rewrite 1 [← hmoved]
    rw [← window_add, ← hrest]
    exact h.content.symm

theorem Channel.Inv.sparesPending (h : c.Inv sz) (hsz : 0 < sz) : c.SparesPending sz := by
  intro p hp hend i hi heq
  obtain ⟨seen, hseen, hrd, hwr, hroom, -, -⟩ := h.put p hp
  have hle := h.le
  rw [used_eq hsz h.wr h.rd h.le h.room] at hi
  rw [h.rd, hwr, Nat.mod_add_mod] at heq
  have := mod_inj_of_lt (a := c.taken.length) (by omega) (by omega) (by omega) (by omega) heq
  omega

/-- A call ends with all its bytes moved, or with all the room used that it saw. -/
theorem Channel.Inv.moved_of_ended (h : c.Inv sz) {p : Put} (hp : c.put = some p) (hend : p.Ended) :
    min (p.moved.length + p.todo.length) p.free ≤ p.moved.length := by
  obtain ⟨seen, hseen, hrd, hwr, hroom, -, hfree⟩ := h.put p hp
  have hle := h.le
  cases hend with
  | inl htodo =>
      rw [htodo]
      exact Nat.min_le_left _ _
  | inr heq =>
      rw [hrd, hwr] at heq
      have := mod_inj_of_lt (a := seen) (by omega) (by omega) (by omega) hroom heq
      refine (Nat.min_le_right _ _).trans ?_
      omega

end

/-- The channels of a pair, and what the calls of `rtt_write` returned. -/
structure Pair.Inv (sz : Nat) (s : Pair) : Prop where
  tx : s.tx.Inv sz
  rx : s.rx.Inv sz
  returns : ∀ r ∈ s.returns, min r.count r.free ≤ r.bytes

theorem Pair.Inv.step {sz : Nat} {s : Pair} (h : s.Inv sz) (hsz : 2 ≤ sz) (hle : sz ≤ 2 ^ 31)
    (i : Step) : (step sz s i).Inv sz := by
  have hpos : 0 < sz := by omega
  have hlt : sz < 2 ^ 32 := by omega
  cases i with
  | write data => exact ⟨h.tx.rttWrite hsz hle data, h.rx, h.returns⟩
  | writeNext =>
      refine ⟨h.tx.rttWriteNext hpos hlt, h.rx, ?_⟩
      simp only [Rtt.step, returnsNext]
      split
      · exact h.returns
      · rename_i p hp
        split
        · rename_i hend
          intro r hr
          cases List.mem_append.mp hr with
          | inl hold => exact h.returns r hold
          | inr hnew =>
              rw [List.mem_singleton.mp hnew]
              exact h.tx.moved_of_ended hp hend
        · exact h.returns
  | read count => exact ⟨h.tx, h.rx.startGet count, h.returns⟩
  | readNext => exact ⟨h.tx, h.rx.rttReadNext hpos hlt, h.returns⟩
  | append data => exact ⟨h.tx, h.rx.hostAppend hpos data, h.returns⟩
  | appendByte => exact ⟨h.tx, h.rx.hostAppendByte hpos hlt, h.returns⟩
  | appended => exact ⟨h.tx, h.rx.hostAppended, h.returns⟩
  | remove => exact ⟨h.tx.startGet 0, h.rx, h.returns⟩
  | removeByte => exact ⟨h.tx.hostRemoveByte hpos hlt, h.rx, h.returns⟩
  | removed => exact ⟨h.tx.hostRemoved, h.rx, h.returns⟩

/-- Pipes of up to two gigabytes work. -/
theorem pipesWork_of_le {sz : Nat} (hsz : 2 ≤ sz) (hle : sz ≤ 2 ^ 31) : PipesWork sz := by
  intro tx rx s hs
  have hpos : 0 < sz := by omega
  have hinv : s.Inv sz := by
    refine hs.invariant (I := fun s => s.Inv sz) ?_ (fun s i h _ => h.step hsz hle i)
    exact ⟨inv_rttInit hpos tx, inv_rttInit hpos rx, nofun⟩
  exact ⟨hinv.tx.fifo hpos, hinv.rx.fifo hpos, hinv.tx.sparesPending hpos, hinv.returns⟩

theorem pipesWork_of_le_sixteen : PipesWork 16 := pipesWork_of_le (by decide) (by decide)

section Large
variable {sz : Nat} {tx rx : Nat → UInt8}

/-- The states of the runs from these buffers. -/
abbrev Run (sz : Nat) (tx rx : Nat → UInt8) (s : Pair) : Prop :=
  Reachable (step sz) (fun _ _ => True) (initial tx rx) s

/-- `rtt_write` moves bytes until its index reaches the limit. -/
theorem Run.putBytes (hsz : 0 < sz) (hlt : sz < 2 ^ 32) {s : Pair} (hs : Run sz tx rx s) {p : Put}
    (hp : s.tx.put = some p) {from_ : Nat} (hwr : p.wr = from_ % sz) {m : Nat}
    (hm : m ≤ p.todo.length) (hne : ∀ i, i < m → p.rd ≠ (from_ + i) % sz) :
    ∃ s' p', Run sz tx rx s' ∧ s'.tx.put = some p' ∧ s'.tx.get = s.tx.get ∧
      s'.tx.pipe.rd = s.tx.pipe.rd ∧ p'.rd = p.rd ∧ p'.wr = (from_ + m) % sz ∧ p'.free = p.free ∧
      p'.moved.length = p.moved.length + m ∧ p'.todo.length + m = p.todo.length := by
  induction m with
  | zero => exact ⟨s, p, hs, hp, rfl, rfl, rfl, hwr, rfl, rfl, rfl⟩
  | succ m ih =>
      obtain ⟨s', p', hs', hp', hget, hrd, hprd, hpwr, hfree, hmoved, htodo⟩ :=
        ih (by omega) (fun i hi => hne i (by omega))
      have hne' : p'.rd ≠ p'.wr := by
        rw [hprd, hpwr]
        exact hne m (by omega)
      obtain ⟨b, todo, hb⟩ : ∃ b todo, p'.todo = b :: todo := by
        cases htodo' : p'.todo with
        | nil => simp [htodo'] at htodo; omega
        | cons b todo => exact ⟨b, todo, rfl⟩
      have hend : ¬p'.Ended := by simp [Put.Ended, hb, hne']
      refine ⟨step sz s' .writeNext, ⟨p'.rd, next sz p'.wr, todo, p'.moved ++ [b], p'.free⟩,
        .step hs' trivial, ?_, ?_, ?_, hprd, ?_, hfree, ?_, ?_⟩
      · simp [step, rttWriteNext, hp', hend, hb, putByte]
      · simpa [step, rttWriteNext, hp', hend, hb, putByte] using hget
      · simpa [step, rttWriteNext, hp', hend, hb, putByte] using hrd
      · rw [hpwr, next_mod hsz hlt, Nat.add_assoc]
      · rw [List.length_append, hmoved, List.length_singleton, Nat.add_assoc]
      · rw [hb, List.length_cons] at htodo
        change todo.length + (m + 1) = _
        omega

/-- The host moves bytes until its index reaches the end of those it has seen. -/
theorem Run.getBytes (hsz : 0 < sz) (hlt : sz < 2 ^ 32) {s : Pair} (hs : Run sz tx rx s) {g : Get}
    (hg : s.tx.get = some g) {from_ : Nat} (hrd : g.rd = from_ % sz) {m : Nat}
    (hne : ∀ i, i < m → g.wr ≠ (from_ + i) % sz) :
    ∃ s' g', Run sz tx rx s' ∧ s'.tx.get = some g' ∧ s'.tx.put = s.tx.put ∧
      s'.tx.pipe.wr = s.tx.pipe.wr ∧ g'.wr = g.wr ∧ g'.rd = (from_ + m) % sz := by
  induction m with
  | zero => exact ⟨s, g, hs, hg, rfl, rfl, rfl, hrd⟩
  | succ m ih =>
      obtain ⟨s', g', hs', hg', hput, hwr, hgwr, hgrd⟩ := ih (fun i hi => hne i (by omega))
      have hne' : g'.rd ≠ g'.wr := by
        rw [hgwr, hgrd]
        exact (hne m (by omega)).symm
      refine ⟨step sz s' .removeByte,
        ⟨next sz g'.rd, g'.wr, g'.todo, g'.moved ++ [s'.tx.pipe.ptr g'.rd]⟩,
        .step hs' trivial, ?_, ?_, ?_, hgwr, ?_⟩
      · simp [step, hostRemoveByte, hg', hne', getByte]
      · simpa [step, hostRemoveByte, hg', hne', getByte] using hput
      · simpa [step, hostRemoveByte, hg', hne', getByte] using hwr
      · rw [hgrd, next_mod hsz hlt, Nat.add_assoc]

/-- A whole call of `rtt_write` that moves `m` bytes. -/
theorem Run.writes (hsz : 0 < sz) (hlt : sz < 2 ^ 32) {s : Pair} (hs : Run sz tx rx s)
    (hput : s.tx.put = none) (from_ limit m : Nat) (data : List UInt8)
    (hwr : s.tx.pipe.wr = from_ % sz) (hlimit : (s.tx.pipe.rd + sz - 1) % 2 ^ 32 % sz = limit)
    (hm : m ≤ data.length) (hne : ∀ i, i < m → limit ≠ (from_ + i) % sz)
    (hend : m = data.length ∨ limit = (from_ + m) % sz) :
    ∃ s', Run sz tx rx s' ∧ s'.tx.put = none ∧ s'.tx.get = s.tx.get ∧
      s'.tx.pipe.rd = s.tx.pipe.rd ∧ s'.tx.pipe.wr = (from_ + m) % sz ∧
      ⟨data.length, sz - 1 - used sz s.tx.pipe, m⟩ ∈ s'.returns := by
  let p : Put := ⟨limit, s.tx.pipe.wr, data, [], sz - 1 - used sz s.tx.pipe⟩
  have hp : (step sz s (.write data)).tx.put = some p := by
    simp only [step, rttWrite, startPut, hput, p]
    rw [hlimit]
  obtain ⟨hget₀, hpipe₀⟩ : (step sz s (.write data)).tx.get = s.tx.get ∧
      (step sz s (.write data)).tx.pipe = s.tx.pipe := by
    simp [step, rttWrite, startPut, hput]
  obtain ⟨s', p', hs', hp', hget, hrd, hprd, hpwr, hfree, hmoved, htodo⟩ :=
    Run.putBytes hsz hlt (.step hs trivial) hp hwr hm hne
  rw [hget₀] at hget
  rw [hpipe₀] at hrd
  simp only [p, List.length_nil, Nat.zero_add] at hmoved htodo hfree hprd
  have hended : p'.Ended := by
    cases hend with
    | inl hall => exact Or.inl (List.eq_nil_of_length_eq_zero (by omega))
    | inr heq => exact Or.inr (by rw [hprd, hpwr, heq])
  refine ⟨step sz s' .writeNext, .step hs' trivial, ?_, ?_, ?_, ?_, ?_⟩
  · simp [step, rttWriteNext, hp', hended, publishPut]
  · simp [step, rttWriteNext, hp', hended, publishPut, hget]
  · simp [step, rttWriteNext, hp', hended, publishPut, hrd]
  · simp [step, rttWriteNext, hp', hended, publishPut, hpwr]
  · have hlen : m + p'.todo.length = data.length := by omega
    simp [step, returnsNext, hp', hended, hmoved, hfree, hlen]

/-- The host takes `m` bytes out. -/
theorem Run.removes (hsz : 0 < sz) (hlt : sz < 2 ^ 32) {s : Pair} (hs : Run sz tx rx s)
    (hget : s.tx.get = none) (from_ m : Nat) (hrd : s.tx.pipe.rd = from_ % sz)
    (hne : ∀ i, i < m → s.tx.pipe.wr ≠ (from_ + i) % sz) :
    ∃ s', Run sz tx rx s' ∧ s'.tx.put = s.tx.put ∧ s'.tx.pipe.wr = s.tx.pipe.wr ∧
      s'.tx.pipe.rd = (from_ + m) % sz := by
  have hg : (step sz s .remove).tx.get = some ⟨s.tx.pipe.rd, s.tx.pipe.wr, 0, []⟩ := by
    simp [step, startGet, hget]
  obtain ⟨hput₀, hpipe₀⟩ : (step sz s .remove).tx.put = s.tx.put ∧
      (step sz s .remove).tx.pipe = s.tx.pipe := by
    simp [step, startGet, hget]
  obtain ⟨s', g', hs', hg', hput, hwr, -, hgrd⟩ :=
    Run.getBytes hsz hlt (.step hs trivial) hg hrd hne
  rw [hput₀] at hput
  rw [hpipe₀] at hwr
  refine ⟨step sz s' .removed, .step hs' trivial, ?_, ?_, ?_⟩
  · simp [step, hostRemoved, hg', publishGet, hput]
  · simp [step, hostRemoved, hg', publishGet, hwr]
  · simp [step, hostRemoved, hg', publishGet, hgrd]

/-- In a larger pipe the limit is computed past the end of the word: `rtt_write` leaves
room it has seen unused. -/
theorem not_pipesWork_of_lt (hle : 2 ^ 31 < sz) (hlt : sz < 2 ^ 32) : ¬PipesWork sz := by
  intro hworks
  have hpos : 0 < sz := by omega
  obtain ⟨r, hr⟩ : ∃ r, r + sz = 2 ^ 32 + 1 := ⟨2 ^ 32 + 1 - sz, by omega⟩
  -- first both indices are brought to the first place where the limit wraps
  have hinit : Run sz (fun _ => 0) (fun _ => 0) (initial (fun _ => 0) (fun _ => 0)) := .init
  obtain ⟨s₁, hs₁, hput₁, hget₁, hrd₁, hwr₁, -⟩ :=
    hinit.writes hpos hlt rfl 0 (sz - 1) r (List.replicate r 0) (Nat.zero_mod sz).symm
      (by
        change (0 + sz - 1) % 2 ^ 32 % sz = sz - 1
        rw [Nat.zero_add, Nat.mod_eq_of_lt (by omega), Nat.mod_eq_of_lt (by omega)])
      (by simp)
      (fun i hi => by rw [Nat.zero_add, Nat.mod_eq_of_lt (by omega)]; omega) (Or.inl (by simp))
  rw [Nat.zero_add, Nat.mod_eq_of_lt (show r < sz by omega)] at hwr₁
  obtain ⟨s₂, hs₂, hput₂, hwr₂, hrd₂⟩ :=
    hs₁.removes hpos hlt hget₁ 0 r (by rw [hrd₁]; exact (Nat.zero_mod sz).symm)
      (fun i hi => by rw [Nat.zero_add, Nat.mod_eq_of_lt (by omega)]; omega)
  rw [Nat.zero_add, Nat.mod_eq_of_lt (show r < sz by omega)] at hrd₂
  -- then a write that would fill the pipe ends at its beginning
  obtain ⟨s₃, hs₃, -, -, -, -, hret⟩ :=
    hs₂.writes hpos hlt (hput₂.trans hput₁) r 0 (sz - r) (List.replicate (sz - 1) 0)
      (by rw [hwr₂, hwr₁, Nat.mod_eq_of_lt (by omega)])
      (by
        rw [hrd₂, show r + sz - 1 = 2 ^ 32 by omega, Nat.mod_self, Nat.zero_mod])
      (by simp; omega)
      (fun i hi => by rw [Nat.mod_eq_of_lt (by omega)]; omega)
      (Or.inr (by rw [Nat.add_sub_cancel' (by omega), Nat.mod_self]))
  have hused : used sz s₂.tx.pipe = 0 := by
    rw [used, hwr₂, hwr₁, hrd₂, Nat.add_sub_cancel_left, Nat.mod_self]
  have hmin := (hworks _ _ s₃ hs₃).2.2.2 _ hret
  simp only [hused, List.length_replicate, Nat.sub_zero, Nat.min_self] at hmin
  omega

end Large

theorem pipes_fail_at_full_word : ¬∀ sz, 2 ≤ sz → sz < 2 ^ 32 → PipesWork sz := by
  intro h
  exact not_pipesWork_of_lt (by decide) (by decide) (h (2 ^ 32 - 1) (by decide) (by decide))

end Plo.Devices.Rtt
