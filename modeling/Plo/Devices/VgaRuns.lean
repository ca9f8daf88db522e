import Mathlib.Data.List.Induction
import Mathlib.Data.Nat.Bitwise
import Plo.Devices.VgaTerminal

/-!
Whatever is printed, the cursor of the terminal is on the screen after every character, and the
registers of the CRT controller hold its place. A call that prints the rest of the characters
therefore goes on where the one before has stopped.
-/
namespace Plo.Devices.Vga

/-- A cell of the screen, or one of the parameters. -/
def Access.Inside : Access → Prop
  | .cell i => i < 25 * 80
  | .parm i => i < PARMS_SIZE

structure Tty.Sound (t : Tty) : Prop where
  rows : t.rows = 25
  cols : t.cols = 80
  parmi : t.parmi < PARMS_SIZE
  accesses : ∀ a ∈ t.accesses, a.Inside

namespace Tty.Sound
variable {t : Tty}

theorem record (h : t.Sound) {a : Access} (ha : a.Inside) : (t.record a).Sound := by
  refine ⟨h.rows, h.cols, h.parmi, ?_⟩
  intro b hb
  rcases List.mem_append.mp hb with hb | hb
  · exact h.accesses b hb
  · rw [List.mem_singleton.mp hb]
    exact ha

theorem put (h : t.Sound) {i : Nat} (hi : i < 25 * 80) (val : BitVec 16) : (t.put i val).Sound :=
  have hrec := h.record (a := .cell i) hi
  ⟨hrec.rows, hrec.cols, hrec.parmi, hrec.accesses⟩

theorem copy (h : t.Sound) {dst src : Nat} (hdst : dst < 25 * 80) (hsrc : src < 25 * 80) :
    (t.copy dst src).Sound :=
  (h.record (a := .cell src) hsrc).put hdst _

theorem foldl {f : Tty → Nat → Tty} {is : List Nat}
    (hf : ∀ t i, t.Sound → i ∈ is → (f t i).Sound) (h : t.Sound) : (is.foldl f t).Sound := by
  induction is generalizing t with
  | nil => exact h
  | cons i is ih =>
      refine ih (fun t j ht hj => hf t j ht (List.mem_cons_of_mem _ hj)) ?_
      exact hf t i h List.mem_cons_self

theorem memset (h : t.Sound) {first n : Nat} (hn : first + n ≤ 25 * 80) (val : BitVec 16) :
    (t.memset first val n).Sound := by
  refine foldl (fun t i ht hi => ht.put ?_ val) h
  have hlt := List.mem_range.mp hi
  omega

theorem memmove (h : t.Sound) {dst src n : Nat} (hdst : dst + n ≤ 25 * 80)
    (hsrc : src + n ≤ 25 * 80) : (t.memmove dst src n).Sound := by
  unfold Tty.memmove
  split
  · refine foldl (fun t i ht hi => ?_) h
    have hlt := List.mem_range.mp hi
    exact ht.copy (by omega) (by omega)
  · refine foldl (fun t i ht hi => ?_) h
    have hlt := List.mem_range.mp (List.mem_reverse.mp hi)
    exact ht.copy (by omega) (by omega)

theorem outb (h : t.Sound) (reg : Nat) (val : UInt8) : (t.outb reg val).Sound :=
  ⟨h.rows, h.cols, h.parmi, h.accesses⟩

theorem withEsc (h : t.Sound) (state : Esc) : ({ t with esc := state } : Tty).Sound :=
  ⟨h.rows, h.cols, h.parmi, h.accesses⟩

theorem withAttr (h : t.Sound) (attr : UInt8) : ({ t with attr := attr } : Tty).Sound :=
  ⟨h.rows, h.cols, h.parmi, h.accesses⟩

theorem clearParms (h : t.Sound) : t.clearParms.Sound :=
  ⟨h.rows, h.cols, (by decide : 0 < PARMS_SIZE), h.accesses⟩

theorem setParm (h : t.Sound) (i : Nat) (val : UInt8) : (t.setParm i val).Sound :=
  ⟨h.rows, h.cols, h.parmi, h.accesses⟩

theorem digit (h : t.Sound) (c : UInt8) : (digit t c).Sound :=
  (h.record (a := .parm t.parmi) h.parmi).setParm _ _

theorem nextParm (h : t.Sound) : (nextParm t).Sound := by
  unfold Vga.nextParm
  split
  · next hlt => exact ⟨h.rows, h.cols, hlt, h.accesses⟩
  · exact h

theorem clampParm (h : t.Sound) (i top : Nat) : (clampParm t i top).Sound := by
  unfold Vga.clampParm
  split
  · exact h.setParm _ _
  · split
    · exact h.setParm _ _
    · exact h

theorem setAttr (h : t.Sound) {i : Nat} (hi : i < PARMS_SIZE) : (setAttr t i).Sound := by
  have hrec := h.record (a := .parm i) hi
  simp only [Vga.setAttr]
  repeat' split
  all_goals exact hrec.withAttr _

theorem setAttrs (h : t.Sound) : (setAttrs t).Sound := by
  refine withEsc (foldl (fun t' i ht' hi => ht'.setAttr ?_) h) .init
  have hlt := List.mem_range.mp hi
  have hparmi := h.parmi
  omega

theorem showCursor (h : t.Sound) (hide : Bool) : (showCursor t hide).Sound := by
  simp only [Vga.showCursor]
  split
  · exact (h.outb _ _).withEsc .init
  · exact h.withEsc .init

end Tty.Sound

/-- The cursor is on the screen. -/
structure Loop.OnScreen (l : Loop) : Prop where
  tty : l.tty.Sound
  row : l.row < 25
  col : l.col < 80

/-- After a character: behind the end of a line or below the screen, but not both. -/
structure Loop.Moved (l : Loop) : Prop where
  tty : l.tty.Sound
  row : l.row ≤ 25
  col : l.col ≤ 80
  corner : l.row = 25 → l.col < 80

/-- The registers of the CRT controller hold the place of the cursor. -/
def Loop.AtCursor (l : Loop) : Prop := l.tty.pos = l.row * l.tty.cols + l.col

section
variable {l : Loop}

theorem Loop.OnScreen.moved (h : l.OnScreen) : l.Moved :=
  ⟨h.tty, Nat.le_of_lt h.row, Nat.le_of_lt h.col, fun _ => h.col⟩

theorem Loop.OnScreen.withTty (h : l.OnScreen) {t : Tty} (ht : t.Sound) :
    ({ l with tty := t } : Loop).OnScreen :=
  ⟨ht, h.row, h.col⟩

/-- A tab ends at the border of the screen at the latest. -/
theorem control_moved (h : l.OnScreen) {tab : Option Nat}
    (htab : tab = none ∨ tab = some TTYBIOS_TAB_WIDTH) (c : UInt8) : (control tab l c).Moved := by
  have hrow := h.row
  have hcol := h.col
  unfold control
  by_cases hback : c = 0x08 ∨ c = 0x7f
  · rw [if_pos hback]
    by_cases hcol' : l.col ≠ 0
    · rw [if_pos hcol']
      exact ⟨h.tty, Nat.le_of_lt hrow, by simp only; omega, by simp only; omega⟩
    · rw [if_neg hcol']
      by_cases hrow' : l.row ≠ 0
      · rw [if_pos hrow']
        refine ⟨h.tty, by simp only; omega, ?_, by simp only; omega⟩
        simp only [h.tty.cols]
        omega
      · rw [if_neg hrow']
        exact h.moved
  · rw [if_neg hback]
    by_cases hht : c = 0x09
    · rw [if_pos hht]
      rcases htab with rfl | rfl
      · exact h.moved
      · have hwidth : TTYBIOS_TAB_WIDTH = 8 := rfl
        refine ⟨h.tty, Nat.le_of_lt hrow, ?_, by simp only; omega⟩
        simp only [hwidth]
        omega
    · rw [if_neg hht]
      by_cases hlf : c = 0x0a
      · rw [if_pos hlf]
        exact ⟨h.tty, hrow, Nat.zero_le _, fun _ => (by decide : 0 < 80)⟩
      · rw [if_neg hlf]
        by_cases hcr : c = 0x0d
        · rw [if_pos hcr]
          exact ⟨h.tty, Nat.le_of_lt hrow, Nat.zero_le _, fun _ => (by decide : 0 < 80)⟩
        · rw [if_neg hcr]
          by_cases hesc : c = 0x1b
          · rw [if_pos hesc]
            exact (h.withTty (h.tty.clearParms.withEsc .esc)).moved
          · rw [if_neg hesc]
            exact h.moved

end

section
variable {t : Tty} {i top : Nat}

theorem clampParm_self (hpos : 1 ≤ top) (htop : top < 256) :
    1 ≤ ((clampParm t i top).parms i).toNat ∧ ((clampParm t i top).parms i).toNat ≤ top := by
  unfold clampParm
  by_cases hlow : t.parms i < 1
  · rw [if_pos hlow]
    simp only [Tty.setParm, Function.update_self]
    exact ⟨Nat.le_refl _, hpos⟩
  · rw [if_neg hlow]
    by_cases hhigh : (t.parms i).toNat > top
    · rw [if_pos hhigh]
      simp only [Tty.setParm, Function.update_self, UInt8.toNat_ofNat']
      rw [Nat.mod_eq_of_lt htop]
      exact ⟨hpos, Nat.le_refl _⟩
    · rw [if_neg hhigh]
      have hone : 1 ≤ t.parms i := UInt8.not_lt.mp hlow
      exact ⟨UInt8.le_iff_toNat_le.mp hone, Nat.le_of_not_lt hhigh⟩

theorem clampParm_other {j : Nat} (hj : j ≠ i) : (clampParm t i top).parms j = t.parms j := by
  unfold clampParm
  split
  · exact Function.update_of_ne hj _ _
  · split
    · exact Function.update_of_ne hj _ _
    · rfl

end

section
variable {l : Loop}

theorem moveCursor_onScreen (h : l.OnScreen) : (moveCursor l).OnScreen := by
  have hrow := (@clampParm_self l.tty 0 l.tty.rows (by rw [h.tty.rows]; decide)
    (by rw [h.tty.rows]; decide))
  have hcol := (@clampParm_self (clampParm l.tty 0 l.tty.rows) 1 l.tty.cols
    (by rw [h.tty.cols]; decide) (by rw [h.tty.cols]; decide))
  have hsame := @clampParm_other (clampParm l.tty 0 l.tty.rows) 1 l.tty.cols 0 (by decide)
  rw [h.tty.rows] at hrow
  rw [h.tty.cols] at hcol
  simp only [h.tty.rows, h.tty.cols] at hsame hcol
  refine ⟨((h.tty.clampParm 0 _).clampParm 1 _).withEsc .init, ?_, ?_⟩
  · simp only [moveCursor, h.tty.rows, h.tty.cols, hsame]
    omega
  · simp only [moveCursor, h.tty.rows, h.tty.cols]
    omega

theorem clear_onScreen (h : l.OnScreen) : (clear l).OnScreen := by
  have hrow := h.row
  have hcol := h.col
  refine ⟨Tty.Sound.withEsc ?_ .init, hrow, hcol⟩
  simp only [h.tty.rows, h.tty.cols]
  split
  · exact h.tty.memset (by omega) _
  · split
    · exact h.tty.memset (by omega) _
    · split
      · exact h.tty.memset (by omega) _
      · exact h.tty

theorem character_moved (h : l.OnScreen) (c : UInt8) : (character l c).Moved := by
  have hrow := h.row
  have hcol := h.col
  have hinit := (h.withTty (h.tty.withEsc .init)).moved
  simp only [character]
  cases l.tty.esc with
  | init =>
      have hcell : l.row * l.tty.cols + l.col < 25 * 80 := by
        rw [h.tty.cols]
        omega
      exact ⟨h.tty.put hcell _, Nat.le_of_lt hrow, hcol, by simp only; omega⟩
  | esc =>
      dsimp only
      split
      · exact (h.withTty (h.tty.clearParms.withEsc .csi)).moved
      · exact hinit
  | csi =>
      dsimp only
      repeat' split
      · exact (h.withTty (h.tty.digit c)).moved
      · exact (h.withTty h.tty.nextParm).moved
      · exact (h.withTty (h.tty.withEsc .csiqm)).moved
      · exact (moveCursor_onScreen h).moved
      · exact (clear_onScreen h).moved
      · exact (h.withTty h.tty.setAttrs).moved
      · exact hinit
  | csiqm =>
      dsimp only
      repeat' split
      · exact (h.withTty (h.tty.digit c)).moved
      · exact (h.withTty h.tty.nextParm).moved
      · exact (h.withTty (h.tty.showCursor false)).moved
      · exact (h.withTty (h.tty.showCursor true)).moved
      · exact hinit

theorem endOfLine_moved (h : l.Moved) : (endOfLine l).Moved ∧ (endOfLine l).col < 80 := by
  have hrow := h.row
  have hcol := h.col
  have hcorner := h.corner
  unfold endOfLine
  rw [h.tty.cols]
  split
  · exact ⟨⟨h.tty, by simp only; omega, Nat.zero_le _, fun _ => (by decide : 0 < 80)⟩, (by decide : 0 < 80)⟩
  · exact ⟨h, by omega⟩

theorem scrollDown_onScreen (h : l.Moved) (hcol : l.col < 80) : (scrollDown l).OnScreen := by
  have hrow := h.row
  unfold scrollDown
  split
  · next heq =>
      rw [h.tty.rows] at heq
      have hmove : (l.tty.memmove 0 l.tty.cols (l.tty.cols * (l.tty.rows - 1))).Sound := by
        rw [h.tty.rows, h.tty.cols]
        exact h.tty.memmove (by decide) (by decide)
      refine ⟨hmove.memset ?_ _, by simp only; omega, (by decide : 0 < 80)⟩
      rw [hmove.cols, h.tty.rows, h.tty.cols]
  · next hne =>
      rw [h.tty.rows] at hne
      exact ⟨h.tty, by omega, hcol⟩

/-- The registers hold a position of sixteen bits. -/
theorem pos_outb (t : Tty) {i : Nat} (hi : i < 25 * 80) :
    ((t.outb 0x0e (UInt8.ofNat (i >>> 8))).outb 0x0f (UInt8.ofNat i)).pos = i := by
  have hlow : (UInt8.ofNat i).toNat = i % 256 := UInt8.toNat_ofNat'
  have hhigh : (UInt8.ofNat (i >>> 8)).toNat = i / 256 := by
    rw [UInt8.toNat_ofNat', Nat.shiftRight_eq_div_pow]
    omega
  have hlt : i % 256 < 2 ^ 8 := Nat.mod_lt _ (by decide)
  simp only [Tty.pos, Tty.outb, Function.update_self,
    Function.update_of_ne (by decide : (0x0e : Nat) ≠ 0x0f), hlow, hhigh]
  rw [Nat.or_comm, ← Nat.shiftLeft_add_eq_or_of_lt hlt, Nat.shiftLeft_eq]
  omega

theorem updateCursor_onScreen (h : l.OnScreen) :
    (updateCursor l).OnScreen ∧ (updateCursor l).AtCursor := by
  have hrow := h.row
  have hcol := h.col
  have hcell : l.row * l.tty.cols + l.col < 25 * 80 := by
    rw [h.tty.cols]
    omega
  exact ⟨h.withTty (((h.tty.outb _ _).outb _ _).put hcell _), pos_outb l.tty hcell⟩

/-- Every character leaves the cursor on the screen, with its place in the registers. -/
theorem step_onScreen (h : l.OnScreen) {tab : Option Nat}
    (htab : tab = none ∨ tab = some TTYBIOS_TAB_WIDTH) (c : UInt8) :
    (step tab l c).OnScreen ∧ (step tab l c).AtCursor := by
  have hmoved : (if isControl c then control tab l c else character l c).Moved := by
    split
    · exact control_moved h htab c
    · exact character_moved h c
  obtain ⟨hline, hcol⟩ := endOfLine_moved hmoved
  exact updateCursor_onScreen (scrollDown_onScreen hline hcol)

/-- A call finds the cursor where it has been left. -/
theorem start_tty (h : l.OnScreen) (hcursor : l.AtCursor) : l.tty.start = l := by
  have hcol := h.col
  unfold Loop.AtCursor at hcursor
  rw [h.tty.cols] at hcursor
  have hrow' : (l.row * 80 + l.col) / 80 = l.row := by omega
  have hcol' : (l.row * 80 + l.col) % 80 = l.col := by omega
  simp only [Tty.start, h.tty.cols, hcursor, hrow', hcol']

end

/-- The terminal is set up, with the cursor on the screen. -/
structure Tty.Ready (t : Tty) : Prop where
  sound : t.Sound
  pos : t.pos < t.rows * t.cols

section
variable {t : Tty} {tab : Option Nat}

theorem start_onScreen (h : t.Ready) : t.start.OnScreen ∧ t.start.AtCursor := by
  have hpos := h.pos
  rw [h.sound.rows, h.sound.cols] at hpos
  refine ⟨⟨h.sound, ?_, ?_⟩, ?_⟩
  · simp only [Tty.start, h.sound.cols]
    omega
  · simp only [Tty.start, h.sound.cols]
    omega
  · exact (Nat.div_add_mod' _ _).symm

theorem run_onScreen (h : t.Ready) (htab : tab = none ∨ tab = some TTYBIOS_TAB_WIDTH)
    (bytes : List UInt8) : (run tab t bytes).OnScreen ∧ (run tab t bytes).AtCursor := by
  induction bytes using List.reverseRecOn with
  | nil => exact start_onScreen h
  | append_singleton bytes c ih =>
      rw [run, List.foldl_append]
      exact step_onScreen ih.1 htab c

theorem Loop.OnScreen.ready {l : Loop} (h : l.OnScreen) (hcursor : l.AtCursor) : l.tty.Ready := by
  have hrow := h.row
  have hcol := h.col
  refine ⟨h.tty, ?_⟩
  unfold Loop.AtCursor at hcursor
  rw [hcursor, h.tty.rows, h.tty.cols]
  omega

/-- Characters that are printed by two calls. -/
theorem run_append (h : t.Ready) (htab : tab = none ∨ tab = some TTYBIOS_TAB_WIDTH)
    (bytes more : List UInt8) : run tab (run tab t bytes).tty more = run tab t (bytes ++ more) := by
  obtain ⟨hscreen, hcursor⟩ := run_onScreen h htab bytes
  rw [run, start_tty hscreen hcursor, run, run, List.foldl_append]

theorem run_flatten (h : t.Ready) (htab : tab = none ∨ tab = some TTYBIOS_TAB_WIDTH)
    (pieces : List (List UInt8)) :
    pieces.foldl (fun t bytes => (run tab t bytes).tty) t = (run tab t pieces.flatten).tty := by
  induction pieces generalizing t with
  | nil => rfl
  | cons bytes pieces ih =>
      obtain ⟨hscreen, hcursor⟩ := run_onScreen h htab bytes
      rw [List.foldl_cons, List.flatten_cons, ih (hscreen.ready hcursor), run_append h htab]

theorem ttybiosInit_ready (vram : Nat → BitVec 16) {crtc : Nat → UInt8}
    (hpos : (ttybiosInit vram crtc).pos < 25 * 80) : (ttybiosInit vram crtc).Ready :=
  ⟨⟨rfl, rfl, (by decide : 0 < PARMS_SIZE), nofun⟩, hpos⟩

/-- After every character of what is printed the cursor is on the screen, no cell of the video
memory behind the screen and no parameter behind the last was used, and it does not matter how
the characters are divided among calls. -/
theorem vgaTerminal_pieces (h : t.Ready) :
    (∀ tab, tab = none ∨ tab = some TTYBIOS_TAB_WIDTH → ∀ bytes,
        (run tab t bytes).OnScreen ∧ (run tab t bytes).AtCursor ∧ (run tab t bytes).tty.Ready) ∧
      (∀ pieces : List (List UInt8), pieces.foldl (fun t buff => (ttybiosWrite t buff).1) t =
        (ttybiosWrite t pieces.flatten).1) ∧
      ∀ (writeHook : Bool) (pieces : List CString) (s : CString),
        s.bytes = (pieces.map CString.bytes).flatten →
          pieces.foldl (fun t s => (halConsoleVgaPrint t writeHook s).1) t =
            (halConsoleVgaPrint t writeHook s).1 := by
  refine ⟨?_, ?_, ?_⟩
  · intro tab htab bytes
    obtain ⟨hscreen, hcursor⟩ := run_onScreen h htab bytes
    exact ⟨hscreen, hcursor, hscreen.ready hcursor⟩
  · intro pieces
    exact run_flatten h (Or.inr rfl) pieces
  · intro writeHook pieces s hs
    have hpieces := run_flatten h (Or.inl rfl) (pieces.map CString.bytes)
    rw [List.foldl_map, ← hs] at hpieces
    exact hpieces

/-- The terminal with the cursor in the first place of the screen. -/
theorem vgaTerminal_pieces_init :
    let t := ttybiosInit (fun _ => 0) (fun _ => 0)
    (∀ tab, tab = none ∨ tab = some TTYBIOS_TAB_WIDTH → ∀ bytes,
        (run tab t bytes).OnScreen ∧ (run tab t bytes).AtCursor ∧ (run tab t bytes).tty.Ready) ∧
      (∀ pieces : List (List UInt8), pieces.foldl (fun t buff => (ttybiosWrite t buff).1) t =
        (ttybiosWrite t pieces.flatten).1) ∧
      ∀ (writeHook : Bool) (pieces : List CString) (s : CString),
        s.bytes = (pieces.map CString.bytes).flatten →
          pieces.foldl (fun t s => (halConsoleVgaPrint t writeHook s).1) t =
            (halConsoleVgaPrint t writeHook s).1 :=
  vgaTerminal_pieces (ttybiosInit_ready _ (by decide))

end

end Plo.Devices.Vga
