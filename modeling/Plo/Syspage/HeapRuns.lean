import Plo.Syspage.Heap

/-!
Runs of requests for blocks of the heap, with the stores of those who were given the blocks
in between. What a run has taken is followed by a supply of numbers in which nothing wraps;
the blocks it returned and the word `size` are read off from there.
-/
namespace Plo.Syspage.Heap
variable {w : Nat}

/-- A block that was returned: its address and the size that was asked for. -/
structure Block (w : Nat) where
  addr : BitVec w
  size : BitVec w
  deriving DecidableEq

namespace Block

/-- The end of the block, which is what the alignment is applied to. -/
def stop (b : Block w) : Nat := roundUp 8 (b.addr.toNat + b.size.toNat)

theorem size_le_stop (b : Block w) : b.addr.toNat + b.size.toNat ≤ b.stop :=
  le_roundUp (by decide)

def extent (b : Block w) : Extent Nat :=
  ⟨b.addr.toNat, b.stop, le_trans (Nat.le_add_right _ _) b.size_le_stop⟩

/-- The addresses of the block, up to its end. -/
def bytes (b : Block w) : Set (BitVec w) := Set.preimage BitVec.toNat b.extent.space

end Block

inductive Call (w : Nat) where
  | alloc (size : BitVec w)
  | write (a : BitVec w) (c : UInt8)

/-- The heap and the blocks returned so far, the newest one first. -/
structure Trace (w : Nat) where
  heap : Heap w
  blocks : List (Block w)

def Trace.step (L : HeapLayout w) (t : Trace w) : Call w → Trace w
  | .alloc size =>
    let res := t.heap.alloc L size
    ⟨res.2, res.1.elim t.blocks (fun addr => ⟨addr, size⟩ :: t.blocks)⟩
  | .write a c => ⟨{ t.heap with mem := Function.update t.heap.mem a c }, t.blocks⟩

/-- No request wraps, and nobody but the requests stores into the word `size`. -/
def Call.Ok (L : HeapLayout w) (t : Trace w) : Call w → Prop
  | .alloc size => t.heap.NoWrap size
  | .write a _ => ¬t.heap.InSize L a

instance (L : HeapLayout w) (t : Trace w) (i : Call w) : Decidable (i.Ok L t) :=
  match i with
  | .alloc size => inferInstanceAs (Decidable (t.heap.NoWrap size))
  | .write a _ => inferInstanceAs (Decidable ¬t.heap.InSize L a)

abbrev Reached (L : HeapLayout w) (mem : BitVec w → UInt8) (t : Trace w) : Prop :=
  Reachable (Trace.step L) (fun t i => i.Ok L t) ⟨init L mem, []⟩ t

/-- Where the first block starts. -/
def bottom (L : HeapLayout w) : Nat := roundUp 8 (L.heapBase.toNat + L.sizeofSyspage.toNat)

/-- The heap as a supply of numbers: a request leads to its end, rounded up. -/
def supply (L : HeapLayout w) : Supply Nat Nat where
  ends size a := roundUp 8 (a + size)
  le_ends size a := le_trans (Nat.le_add_right a size) (le_roundUp (by decide))
  limit := L.heapLimit.toNat

/-- What a trace and what was taken of the supply have in common. -/
structure Tracks (L : HeapLayout w) (t : Trace w) (k : Taken (bottom L)) : Prop where
  syspage : t.heap.syspage = L.heapBase
  heapEnd : t.heap.heapEnd = L.heapLimit
  heapTop : t.heap.heapTop.toNat = k.top
  size : t.heap.size L = t.heap.heapTop - L.heapBase
  blocks : t.blocks.map Block.extent = k.blocks

section Steps
variable {L : HeapLayout w} {t : Trace w} {k : Taken (bottom L)}

theorem tracks_init (L : HeapLayout w) (mem : BitVec w → UInt8) :
    Tracks L ⟨init L mem, []⟩ (Taken.empty (bottom L)) where
  syspage := rfl
  heapEnd := rfl
  heapTop := init_heapTop L mem
  size := size_setSize
  blocks := rfl

/-- A request is granted when the supply grants it, and refused when it refuses it. -/
theorem Tracks.alloc (h : Tracks L t k) {size : BitVec w} (hok : t.heap.NoWrap size) :
    Tracks L (t.step L (.alloc size)) ((supply L).take k size.toNat) := by
  have hends : (supply L).ends size.toNat k.top =
      (alignAddr (t.heap.heapTop + size) (8 : BitVec w)).toNat := by
    rw [toNat_alignAddr_eight L.wide hok, h.heapTop]
    rfl
  obtain ⟨hge, heq⟩ | ⟨hlt, heq⟩ := alloc_cases L t.heap size
  · rw [h.heapEnd, BitVec.le_def, ← hends] at hge
    rw [Supply.take_refused hge]
    simp only [Trace.step, heq, Option.elim_none]
    exact h
  · rw [h.heapEnd, BitVec.lt_def, ← hends] at hlt
    rw [Supply.take_granted hlt]
    simp only [Trace.step, heq]
    refine ⟨h.syspage, h.heapEnd, hends.symm, ?_, ?_⟩
    · simp only [size_setSize, setSize_heapTop, h.syspage]
    · simp only [Option.elim_some, List.map_cons, h.blocks, Taken.push, List.cons.injEq, and_true]
      simp only [Block.extent, Block.stop, h.heapTop, supply]

theorem Tracks.write (h : Tracks L t k) {a : BitVec w} (ha : ¬t.heap.InSize L a) (c : UInt8) :
    Tracks L (t.step L (.write a c)) k where
  syspage := h.syspage
  heapEnd := h.heapEnd
  heapTop := h.heapTop
  size := (L.host.load_update t.heap.mem ha).trans h.size
  blocks := h.blocks

theorem Reached.tracks {mem : BitVec w → UInt8} (h : Reached L mem t) :
    ∃ k, (supply L).Reached k ∧ Tracks L t k := by
  refine Reachable.simulated (R := Tracks L) (tracks_init L mem) ?_ h
  intro t k i hk hok
  cases i with
  | alloc size => exact Or.inr ⟨size.toNat, hk.alloc hok⟩
  | write a c => exact Or.inl (hk.write hok c)

end Steps

/-- Where the last block ends, or the first one will start. -/
def Trace.lastEnd (L : HeapLayout w) (t : Trace w) : Nat :=
  t.blocks.head?.elim (bottom L) Block.stop

/-- The `size` bytes from the system page on, which the kernel is given. -/
def kernelBytes (L : HeapLayout w) (s : Heap w) : Set (BitVec w) :=
  {a | s.syspage.toNat ≤ a.toNat ∧ a.toNat < s.syspage.toNat + (s.size L).toNat}

/-- The blocks and the word `size` as the kernel relies on them. -/
structure Trace.Sound (L : HeapLayout w) (t : Trace w) : Prop where
  disjoint : t.blocks.Pairwise (fun b b' => Disjoint b.bytes b'.bytes)
  aligned : ∀ b ∈ t.blocks, 8 ∣ b.addr.toNat
  behind : ∀ b ∈ t.blocks, L.heapBase.toNat + L.sizeofSyspage.toNat ≤ b.addr.toNat
  room : ∀ b ∈ t.blocks, b.addr.toNat + b.size.toNat ≤ b.stop
  below : ∀ b ∈ t.blocks, b.stop < t.heap.heapEnd.toNat
  heapTop : t.heap.heapTop.toNat = t.lastEnd L
  size : t.heap.syspage.toNat + (t.heap.size L).toNat = t.lastEnd L
  kernel : ∀ b ∈ t.blocks, b.bytes ⊆ kernelBytes L t.heap

section Blocks
variable {L : HeapLayout w} {t : Trace w} {k : Taken (bottom L)}

theorem Tracks.extent_mem (h : Tracks L t k) {b : Block w} (hb : b ∈ t.blocks) :
    b.extent ∈ k.blocks := by
  rw [← h.blocks]
  exact List.mem_map_of_mem hb

theorem Tracks.lastEnd (h : Tracks L t k) : k.top = t.lastEnd L := by
  have htiles := k.tiles
  rw [← h.blocks] at htiles
  simp only [Trace.lastEnd]
  cases hb : t.blocks with
  | nil =>
      rw [hb] at htiles
      exact htiles
  | cons b bs =>
      rw [hb] at htiles
      exact htiles.1.symm

theorem header_le_bottom (L : HeapLayout w) :
    L.heapBase.toNat + L.sizeofSyspage.toNat ≤ bottom L := le_roundUp (by decide)

theorem Tracks.size_end (h : Tracks L t k) :
    t.heap.syspage.toNat + (t.heap.size L).toNat = k.top := by
  have hbottom := k.tiles.bottom_le
  have hheader := header_le_bottom L
  have hle : L.heapBase ≤ t.heap.heapTop := by
    rw [BitVec.le_def, h.heapTop]
    omega
  rw [h.size, h.syspage, BitVec.toNat_sub_of_le hle, h.heapTop]
  omega

theorem Tracks.mem_kernelBytes (h : Tracks L t k) {a : BitVec w} :
    a ∈ kernelBytes L t.heap ↔ L.heapBase.toNat ≤ a.toNat ∧ a.toNat < k.top := by
  have hbase : L.heapBase.toNat = t.heap.syspage.toNat := by rw [h.syspage]
  rw [← h.size_end, hbase]
  exact Iff.rfl

theorem Tracks.sound (h : Tracks L t k) (hk : (supply L).Reached k) : t.Sound L where
  disjoint := by
    have hdisjoint := k.tiles.pairwise_disjoint
    rw [← h.blocks, List.pairwise_map] at hdisjoint
    exact hdisjoint.imp (Disjoint.preimage BitVec.toNat)
  aligned b hb := by
    have hclosed := Supply.Reached.closed (P := fun a => 8 ∣ a) (dvd_roundUp 8 _)
      (fun size a _ => dvd_roundUp 8 (a + size)) hk
    exact hclosed.2 _ (h.extent_mem hb)
  behind b hb := le_trans (header_le_bottom L) (k.tiles.mem (h.extent_mem hb)).1
  room b _ := b.size_le_stop
  below b hb := by
    rw [h.heapEnd]
    exact hk.below _ (h.extent_mem hb)
  heapTop := h.heapTop.trans h.lastEnd
  size := h.size_end.trans h.lastEnd
  kernel b hb a ha := by
    obtain ⟨hbottom, htop⟩ := k.tiles.mem (h.extent_mem hb)
    have hheader := header_le_bottom L
    have hbase : L.heapBase.toNat ≤ bottom L := le_trans (Nat.le_add_right _ _) hheader
    exact h.mem_kernelBytes.mpr
      ⟨le_trans hbase (le_trans hbottom ha.1), lt_of_lt_of_le ha.2 htop⟩

/-- The word `size` lies in the header, apart from every block. -/
theorem Tracks.not_inSize (h : Tracks L t k) {b : Block w} (hb : b ∈ t.blocks) {a : BitVec w}
    (ha : a ∈ b.bytes) : ¬t.heap.InSize L a := by
  have hinside := L.size_inside
  have hheader := header_le_bottom L
  have hbottom : bottom L ≤ a.toNat :=
    le_trans (k.tiles.mem (h.extent_mem hb)).1 ha.1
  have hword : (t.heap.sizeWord L).toNat = L.heapBase.toNat + L.offsetofSize.toNat := by
    have hlt := a.isLt
    rw [sizeWord, h.syspage]
    exact BitVec.toNat_add_of_lt (by omega)
  have hle : t.heap.sizeWord L ≤ a := by
    rw [BitVec.le_def, hword]
    omega
  rw [InSize, BitVec.toNat_sub_of_le hle, hword]
  omega

/-- Behind the header the kernel is given the bytes of the blocks and no others. -/
theorem Reached.kernelBytes_iff {mem : BitVec w → UInt8} (h : Reached L mem t) (a : BitVec w) :
    (∃ b ∈ t.blocks, a ∈ b.bytes) ↔ a ∈ kernelBytes L t.heap ∧ bottom L ≤ a.toNat := by
  obtain ⟨k, -, htracks⟩ := h.tracks
  have hspace := k.tiles.mem_space_iff a.toNat
  simp only [← htracks.blocks, List.mem_map, exists_exists_and_eq_and] at hspace
  have hheader := header_le_bottom L
  refine hspace.trans ?_
  rw [htracks.mem_kernelBytes]
  omega

end Blocks

section Requests
variable {L : HeapLayout w} {t : Trace w} {size size' : BitVec w}

theorem step_failed (h : (t.heap.alloc L size).1 = none) : t.step L (.alloc size) = t := by
  simp only [Trace.step, h, alloc_failed h, Option.elim_none]

/-- What is refused is larger than what is granted from the same top. -/
theorem lt_of_refused (L : HeapLayout w) (hok : t.heap.NoWrap size)
    (hok' : t.heap.NoWrap size') (h : (t.heap.alloc L size).1 = none)
    (h' : (t.heap.alloc L size').1 = some t.heap.heapTop) : size' < size := by
  have hlt := (alloc_granted_iff L hok').mp h'
  have hnot : (t.heap.alloc L size).1 ≠ some t.heap.heapTop := by
    rw [h]
    exact (Option.some_ne_none _).symm
  have hge := mt (alloc_granted_iff L hok).mpr hnot
  have hsum := (roundUp_mono (by decide)).reflect_lt (lt_of_lt_of_le hlt (not_lt.mp hge))
  rw [BitVec.lt_def]
  omega

end Requests

/-- After every run of requests that do not wrap the heap address, the blocks are disjoint,
aligned and between the header and `heapEnd`, and `size` reaches to the end of the last one.
Requests that follow keep what is in the blocks. A failed one changes nothing at all, and
from then on just those requests are granted whose end is below `heapEnd`, all smaller. -/
theorem heap_runs_sound (L : HeapLayout w) (mem : BitVec w → UInt8) {t : Trace w}
    (h : Reached L mem t) :
    t.Sound L ∧
    (∀ sizes, ∀ b ∈ t.blocks, ∀ a ∈ b.bytes,
      (t.heap.allocAll L sizes).mem a = t.heap.mem a) ∧
    ∀ size, t.heap.NoWrap size → (t.heap.alloc L size).1 = none →
      t.step L (.alloc size) = t ∧
      ∀ size', t.heap.NoWrap size' →
        (((t.step L (.alloc size)).heap.alloc L size').1 = some t.heap.heapTop ↔
          roundUp 8 (t.heap.heapTop.toNat + size'.toNat) < t.heap.heapEnd.toNat) ∧
        (((t.step L (.alloc size)).heap.alloc L size').1 = some t.heap.heapTop →
          size' < size) := by
  obtain ⟨k, hk, htracks⟩ := h.tracks
  refine ⟨htracks.sound hk, ?_, ?_⟩
  · intro sizes b hb a ha
    exact allocAll_mem (htracks.not_inSize hb ha) sizes
  · intro size hok hfailed
    have hstep := step_failed hfailed
    refine ⟨hstep, ?_⟩
    intro size' hok'
    rw [hstep]
    exact ⟨alloc_granted_iff L hok', lt_of_refused L hok hok' hfailed⟩

/-- One page behind a header of 128 bytes, with `size` in its second word. -/
def pageHeap : HeapLayout 64 where
  heapBase := 0x00100000
  heapLimit := 0x00101000
  sizeofSyspage := 128
  offsetofSize := 8
  host := ⟨.little, by decide⟩
  wide := by decide
  size_inside := by decide
  header_room := by decide

/-- A block of 100 bytes, a byte stored into it, a request whose end is `heapEnd` itself,
and a smaller one. -/
def pageTrace : Trace 64 :=
  [Call.alloc 100, Call.write 0x00100080 0x41, Call.alloc 3864, Call.alloc 3856].foldl
    (Trace.step pageHeap) ⟨init pageHeap (fun _ => 0), []⟩

theorem pageTrace_reached : Reached pageHeap (fun _ => 0) pageTrace := by
  have h₀ : Reached pageHeap (fun _ => 0) ⟨init pageHeap (fun _ => 0), []⟩ := .init
  have h₁ := h₀.step (i := .alloc 100) (by decide +kernel)
  have h₂ := h₁.step (i := .write 0x00100080 0x41) (by decide +kernel)
  have h₃ := h₂.step (i := .alloc 3864) (by decide +kernel)
  exact h₃.step (i := .alloc 3856) (by decide +kernel)

theorem heap_runs_sound_page :
    pageTrace.blocks = [⟨0x001000e8, 3856⟩, ⟨0x00100080, 100⟩] ∧
    pageTrace.heap.size pageHeap = 4088 ∧
    pageTrace.heap.mem 0x00100080 = 0x41 ∧
    pageTrace.Sound pageHeap ∧
    pageTrace.step pageHeap (.alloc 1) = pageTrace ∧
    (pageTrace.heap.alloc pageHeap 0).1 = some 0x00100ff8 := by
  have h := heap_runs_sound pageHeap (fun _ => 0) pageTrace_reached
  obtain ⟨hstep, hrest⟩ := h.2.2 1 (by decide +kernel) (by decide +kernel)
  refine ⟨by decide +kernel, by decide +kernel, by decide +kernel, h.1, hstep, ?_⟩
  have hzero := (hrest 0 (by decide +kernel)).1.mpr (by decide +kernel)
  rw [hstep] at hzero
  rw [hzero]
  decide +kernel

end Plo.Syspage.Heap
