import Mathlib.Data.List.GetD
import Plo.Cmds.PromptText

/-!
What the prompt does with the characters it gets. An editor keeps the line and the
executed lines as lists and says what every key is for; the prompt does the same with its
ring of buffers, whatever is typed. The executed lines can be recalled from the last one on
right after a line was executed. An Enter on an empty line leaves the arrows where they
were.
-/
namespace Plo.Cmds

/-- What a key is for. -/
inductive Edit
  | enter
  | append (c : UInt8)
  | erase
  | up
  | down
  | skip
  deriving DecidableEq

/-- The edit of a character or a control code, and whether the last line ended with a CR: an
LF that follows belongs to the same end. -/
def edit (newline : Bool) (c sc : UInt8) : Edit × Bool :=
  if c = 0 then (if sc = 72 then .up else if sc = 80 then .down else .skip, newline)
  else if c = 0x0d then (.enter, true)
  else if c = 0x0a then (if newline then .skip else .enter, false)
  else if c = 0x09 then (.skip, newline)
  else if c = 8 then (.erase, false)
  else (.append c, false)

/-- The line that is edited, the executed lines, the last one first, and how many of them the
arrows have gone back. -/
structure Editor where
  line : List UInt8
  executed : List (List UInt8)
  selected : Nat
  newline : Bool

namespace Editor

def apply (e : Editor) : Edit → Editor
  | .enter => if e.line = [] then e else ⟨[], e.line :: e.executed, 0, e.newline⟩
  | .append c =>
    if e.line.length < SIZE_CMD_ARG_LINE - 1 then { e with line := e.line ++ [c] } else e
  | .erase => { e with line := e.line.dropLast }
  | .up =>
    if e.selected < min e.executed.length (SIZE_HIST - 1) then
      { e with line := e.executed.getD e.selected [], selected := e.selected + 1 }
    else e
  | .down =>
    if e.selected = 0 then e
    else if e.selected = 1 then { e with line := [], selected := 0 }
    else { e with line := e.executed.getD (e.selected - 2) [], selected := e.selected - 1 }
  | .skip => e

def key (e : Editor) (k : UInt8 × UInt8) : Editor :=
  { e.apply (edit e.newline k.1 k.2).1 with newline := (edit e.newline k.1 k.2).2 }

def init : Editor := ⟨[], [], 0, false⟩

theorem setNewline_apply (e : Editor) (b : Bool) (ed : Edit) :
    ({ e with newline := b } : Editor).apply ed = { e.apply ed with newline := b } := by
  cases ed with
  | enter | append c | up =>
      simp only [apply]
      split <;> rfl
  | down =>
      simp only [apply]
      split
      · rfl
      · split <;> rfl
  | erase | skip => rfl

end Editor

/-- The buffer `k` lines back on the ring. -/
def back (ll k : Nat) : Nat := (ll + SIZE_HIST - k) % SIZE_HIST

/-- The prompt holds what the editor says. Where the line is empty its buffer may hold
anything. -/
structure Shows (p : Prompt) (e : Editor) : Prop where
  ll : p.ll < SIZE_HIST
  cl : p.cl = back p.ll e.selected
  selected : e.selected ≤ min e.executed.length (SIZE_HIST - 1)
  pos : p.pos = e.line.length
  line : e.line ≠ [] → Text (p.lines p.ll) e.line
  newline : p.newline = e.newline
  parsed : p.parsed.map CString.bytes = e.executed
  nonempty : [] ∉ e.executed
  history : ∀ k, 0 < k → k < SIZE_HIST → Text (p.lines (back p.ll k)) (e.executed.getD (k - 1) [])

section Steps
variable {p : Prompt} {e : Editor}

theorem back_ne {ll k : Nat} (hll : ll < SIZE_HIST) (hk : 0 < k) (hlt : k < SIZE_HIST) :
    back ll k ≠ ll := by
  simp only [back, SIZE_HIST] at *
  omega

/-- Only the line that is edited and the cursor differ. -/
structure LineOnly (p p' : Prompt) : Prop where
  ll : p'.ll = p.ll
  cl : p'.cl = p.cl
  newline : p'.newline = p.newline
  parsed : p'.parsed = p.parsed
  lines : ∀ k, k ≠ p.ll → p'.lines k = p.lines k

theorem LineOnly.write {p' : Prompt} (h : LineOnly p p') (i : Nat) (data : List UInt8) :
    LineOnly p (p'.write i data) := by
  refine ⟨h.ll, h.cl, h.newline, h.parsed, fun k hk => ?_⟩
  rw [p'.write_lines_of_ne (h.ll ▸ hk), h.lines k hk]

theorem LineOnly.setPos {p' : Prompt} (h : LineOnly p p') (n : Nat) :
    LineOnly p { p' with pos := n } := ⟨h.ll, h.cl, h.newline, h.parsed, h.lines⟩

theorem LineOnly.refl (p : Prompt) : LineOnly p p := ⟨rfl, rfl, rfl, rfl, fun _ _ => rfl⟩

/-- A change of the line that is edited leaves the executed ones alone. -/
theorem Shows.replace (h : Shows p e) {p' : Prompt} {text : List UInt8} (hframe : LineOnly p p')
    (hpos : p'.pos = text.length) (htext : text ≠ [] → Text (p'.lines p.ll) text) :
    Shows p' { e with line := text } := by
  refine ⟨hframe.ll ▸ h.ll, ?_, h.selected, hpos, fun hne => ?_, ?_, ?_, h.nonempty, ?_⟩
  · rw [hframe.cl, hframe.ll, h.cl]
  · rw [hframe.ll]
    exact htext hne
  · rw [hframe.newline, h.newline]
  · rw [hframe.parsed, h.parsed]
  · intro k hk hlt
    rw [hframe.ll, hframe.lines _ (back_ne h.ll hk hlt)]
    exact h.history k hk hlt

theorem Shows.select (h : Shows p e) {k : Nat} (hk : k ≤ min e.executed.length (SIZE_HIST - 1)) :
    Shows { p with cl := back p.ll k } { e with selected := k } :=
  ⟨h.ll, rfl, hk, h.pos, h.line, h.newline, h.parsed, h.nonempty, h.history⟩

theorem Shows.setNewline (h : Shows p e) (b : Bool) :
    Shows { p with newline := b } { e with newline := b } :=
  ⟨h.ll, h.cl, h.selected, h.pos, h.line, rfl, h.parsed, h.nonempty, h.history⟩

/-- The cursor is at the end of the line that is edited. -/
theorem Shows.pos_lt (h : Shows p e) : p.pos < SIZE_CMD_ARG_LINE := by
  rw [h.pos]
  by_cases hline : e.line = []
  · rw [hline]
    exact Nat.zero_lt_succ _
  · exact (h.line hline).short

theorem Shows.pos_eq_zero_iff (h : Shows p e) : p.pos = 0 ↔ e.line = [] := by
  rw [h.pos, List.length_eq_zero_iff]

/-- The buffer starts with the line that is edited, also when it is empty. -/
theorem Shows.slice_line (h : Shows p e) : slice (p.lines p.ll) 0 e.line.length = e.line := by
  by_cases hnil : e.line = []
  · rw [hnil]
    rfl
  · exact (h.line hnil).slice_length

theorem Shows.noNul (h : Shows p e) : 0 ∉ e.line := by
  by_cases hnil : e.line = []
  · rw [hnil]
    nofun
  · exact (h.line hnil).noNul

theorem shows_enter (h : Shows p e) : Shows p.enter (e.apply .enter) := by
  simp only [Prompt.enter, Editor.apply]
  by_cases hnil : e.line = []
  · rw [if_pos hnil, if_neg (not_not.mpr (h.pos_eq_zero_iff.mpr hnil))]
    exact h
  · rw [if_neg hnil, if_pos (fun hpos => hnil (h.pos_eq_zero_iff.mp hpos))]
    have hline := h.line hnil
    have hll := h.ll
    refine ⟨Nat.mod_lt _ (by decide), ?_, Nat.zero_le _, rfl, fun hne => absurd rfl hne, h.newline,
      ?_, ?_, ?_⟩
    · simp only [back, SIZE_HIST] at *
      omega
    · rw [List.map_cons, h.parsed]
      congr 1
      exact hline.ofBuffer
    · intro hmem
      cases List.mem_cons.mp hmem with
      | inl heq => exact hnil heq.symm
      | inr hmem => exact h.nonempty hmem
    · intro k hk hlt
      match k with
      | 1 =>
          have hback : back ((p.ll + 1) % SIZE_HIST) 1 = p.ll := by
            simp only [back, SIZE_HIST] at *
            omega
          rw [hback]
          exact hline
      | k + 2 =>
          have hback : back ((p.ll + 1) % SIZE_HIST) (k + 2) = back p.ll (k + 1) := by
            simp only [back, SIZE_HIST] at *
            omega
          rw [hback]
          exact h.history (k + 1) (Nat.succ_pos k) (by omega)

theorem shows_append {c : UInt8} (hc : c ≠ 0) (h : Shows p e) :
    Shows (if p.pos < SIZE_CMD_ARG_LINE - 1 then p.append c else p) (e.apply (.append c)) := by
  simp only [Editor.apply, ← h.pos]
  split
  · rename_i hlt
    refine h.replace ((((LineOnly.refl p).write _ _).write _ _).setPos _) ?_ fun _ => ?_
    · rw [List.length_append, List.length_singleton, ← h.pos]
      rfl
    · have hbuff : (p.append c).lines p.ll =
          overlay (overlay (p.lines p.ll) e.line.length [c]) (e.line.length + 1) [0] := by
        rw [← h.pos]
        exact ((p.write p.pos [c]).write_lines_self _ _).trans
          (congrArg (overlay · _ _) (p.write_lines_self _ _))
      rw [hbuff]
      exact Text.append hc h.noNul (by rw [← h.pos]; omega) h.slice_line
  · exact h

theorem shows_erase (h : Shows p e) :
    Shows (if p.pos > 0 then p.erase else p) (e.apply .erase) := by
  simp only [Editor.apply]
  split
  · rename_i hpos
    have hne : e.line ≠ [] := fun hnil => by rw [h.pos, hnil] at hpos; cases hpos
    refine h.replace (((LineOnly.refl p).write _ _).setPos _) ?_ fun _ => ?_
    · rw [List.length_dropLast, ← h.pos]
      rfl
    · have hbuff : p.erase.lines p.ll = overlay (p.lines p.ll) (e.line.length - 1) [0] := by
        rw [← h.pos]
        exact p.write_lines_self _ _
      rw [hbuff]
      exact (h.line hne).erase hne
  · rename_i hpos
    have hnil : e.line = [] := h.pos_eq_zero_iff.mp (by omega)
    rw [hnil, List.dropLast_nil, ← hnil]
    exact h

/-- The line of another buffer is copied to the one that is edited. -/
theorem shows_fetch (h : Shows p e) {k : Nat} (hk : 0 < k)
    (hle : k ≤ min e.executed.length (SIZE_HIST - 1)) :
    Shows { p with cl := back p.ll k }.fetch.redraw
      { e with line := e.executed.getD (k - 1) [], selected := k } := by
  have htext := h.history k hk (by omega)
  have hcopy := htext.copy (p.lines p.ll)
  have hbuff : ({ p with cl := back p.ll k } : Prompt).fetch.lines p.ll =
      overlay (p.lines p.ll) 0 (slice (p.lines (back p.ll k)) 0
        ((e.executed.getD (k - 1) []).length + 1)) := by
    rw [← htext.ofBuffer]
    exact Prompt.write_lines_self _ _ _
  rw [← hbuff] at hcopy
  refine (h.select hle).replace (((LineOnly.refl _).write _ _).setPos _) ?_ fun _ => hcopy
  exact congrArg List.length hcopy.ofBuffer

theorem Shows.getD_ne_nil_iff (h : Shows p e) {k : Nat} :
    e.executed.getD k [] ≠ [] ↔ k < e.executed.length := by
  constructor
  · intro hne
    by_contra hge
    exact hne (List.getD_eq_default _ _ (Nat.le_of_not_lt hge))
  · intro hlt hnil
    rw [List.getD_eq_getElem _ _ hlt] at hnil
    exact h.nonempty (hnil ▸ List.getElem_mem hlt)

theorem shows_up (h : Shows p e) : Shows p.up (e.apply .up) := by
  have hll := h.ll
  have hsel := h.selected
  have hncl : (p.cl + SIZE_HIST - 1) % SIZE_HIST = back p.ll (e.selected + 1) := by
    rw [h.cl]
    simp only [back, SIZE_HIST] at *
    omega
  -- there is a line to go back to exactly when its buffer is another one and not empty
  have hguard : (back p.ll (e.selected + 1) ≠ p.ll ∧ p.lines (back p.ll (e.selected + 1)) 0 ≠ 0) ↔
      e.selected < min e.executed.length (SIZE_HIST - 1) := by
    by_cases hlast : e.selected + 1 < SIZE_HIST
    · have htext := h.history (e.selected + 1) (Nat.succ_pos _) hlast
      rw [htext.head_ne_zero_iff, Nat.add_sub_cancel, h.getD_ne_nil_iff]
      exact ⟨fun hlt => by omega, fun hlt => ⟨back_ne hll (Nat.succ_pos _) hlast, by omega⟩⟩
    · refine iff_of_false (fun hne => hne.1 ?_) (by omega)
      simp only [back, SIZE_HIST] at *
      omega
  simp only [Prompt.up, Editor.apply, hncl, hguard]
  split
  · rename_i hlt
    exact shows_fetch h (Nat.succ_pos _) hlt
  · exact h

theorem shows_down (h : Shows p e) : Shows p.down (e.apply .down) := by
  have hll := h.ll
  have hsel := h.selected
  have hcl : p.cl = p.ll ↔ e.selected = 0 := by
    rw [h.cl]
    simp only [back, SIZE_HIST] at *
    omega
  simp only [Prompt.down, Editor.apply]
  by_cases hzero : e.selected = 0
  · rw [if_pos hzero, if_neg (not_not.mpr (hcl.mpr hzero))]
    exact h
  · have hncl : (p.cl + 1) % SIZE_HIST = back p.ll (e.selected - 1) := by
      rw [h.cl]
      simp only [back, SIZE_HIST] at *
      omega
    rw [if_neg hzero, if_pos (fun heq => hzero (hcl.mp heq)), hncl]
    by_cases hone : e.selected = 1
    · have hend : back p.ll (e.selected - 1) = p.ll := by
        simp only [back, SIZE_HIST] at *
        omega
      rw [if_pos hone, if_neg (not_not.mpr hend), hone]
      have hclear := Text.clear (p.lines p.ll)
      rw [← Prompt.write_lines_self] at hclear
      refine (h.select (Nat.zero_le _)).replace (((LineOnly.refl _).write _ _).setPos _) ?_
        fun hne => absurd rfl hne
      exact congrArg List.length hclear.ofBuffer
    · rw [if_neg hone, if_pos (back_ne hll (by omega) (by omega))]
      exact shows_fetch h (by omega) (by omega)

theorem shows_of_edit {p' : Prompt} {c sc : UInt8} (ed : Edit) {newline : Bool}
    (hedit : edit e.newline c sc = (ed, newline))
    (h : Shows p' (({ e with newline := newline } : Editor).apply ed)) :
    Shows p' (e.key (c, sc)) := by
  rw [Editor.setNewline_apply] at h
  simp only [Editor.key, hedit]
  exact h

/-- A turn of the loop does what the editor does. -/
theorem shows_key (h : Shows p e) (c sc : UInt8) : Shows (p.key c sc) (e.key (c, sc)) := by
  by_cases hzero : c = 0
  · simp only [Prompt.key, hzero, ne_eq, not_true_eq_false, if_false]
    split
    · rename_i hup
      exact shows_of_edit .up (by simp [edit, hup]) (shows_up h)
    · rename_i hup
      split
      · rename_i hdown
        exact shows_of_edit .down (by simp [edit, hdown]) (shows_down h)
      · rename_i hdown
        exact shows_of_edit .skip (by simp [edit, hup, hdown]) h
  · simp only [Prompt.key, if_pos (show c ≠ 0 from hzero)]
    split
    · split
      · rename_i hcr
        exact shows_of_edit .enter (by simp [edit, hcr]) (shows_enter (h.setNewline true))
      · rename_i hend hcr
        have hlf := hend.resolve_left hcr
        split
        · rename_i hnewline
          rw [h.newline] at hnewline
          exact shows_of_edit .skip (by simp [edit, hlf, hnewline]) (h.setNewline false)
        · rename_i hnewline
          rw [h.newline, Bool.not_eq_true] at hnewline
          exact shows_of_edit .enter (by simp [edit, hlf, hnewline]) (shows_enter h)
    · rename_i hend
      obtain ⟨hcr, hlf⟩ := not_or.mp hend
      split
      · rename_i htab
        exact shows_of_edit .skip (by simp [edit, htab]) h
      · rename_i htab
        by_cases herase : c = 8
        · simp only [herase, ne_eq, not_true_eq_false, false_and, if_false, true_and]
          exact shows_of_edit .erase (by simp [edit]) (shows_erase (h.setNewline false))
        · simp only [herase, ne_eq, not_false_eq_true, true_and, false_and, if_false]
          exact shows_of_edit (.append c) (by simp [edit, hzero, hcr, hlf, htab, herase])
            (shows_append hzero (h.setNewline false))

end Steps

/-- The turns of the loop with these keys. -/
def Prompt.keys (p : Prompt) (keys : List (UInt8 × UInt8)) : Prompt :=
  keys.foldl (fun p k => p.key k.1 k.2) p

/-- The keys of a turn each, up to the one that ends the prompt. -/
def readKeys (input : List UInt8) : List (UInt8 × UInt8) :=
  match _h : readKey input with
  | none => []
  | some (k, rest) => if k.1 = 0x23 then [k] else k :: readKeys rest
termination_by input.length
decreasing_by exact readKey_shorter _h

theorem readKeys_none {input : List UInt8} (h : readKey input = none) : readKeys input = [] := by
  rw [readKeys]
  split
  · rfl
  · next h' => cases h.symm.trans h'

theorem readKeys_some {input rest : List UInt8} {k : UInt8 × UInt8}
    (h : readKey input = some (k, rest)) :
    readKeys input = if k.1 = 0x23 then [k] else k :: readKeys rest := by
  rw [readKeys]
  split
  · next h' => cases h.symm.trans h'
  · next h' => cases h.symm.trans h'; rfl

theorem readKeys_up (cs : List UInt8) : readKeys (27 :: 91 :: 0x41 :: cs) = (0, 72) :: readKeys cs := by
  have hread : readKey (27 :: 91 :: 0x41 :: cs) = some ((0, 72), cs) := rfl
  rw [readKeys_some hread, if_neg (by decide)]

theorem readKeys_delete (cs : List UInt8) : readKeys (127 :: cs) = (8, 0) :: readKeys cs := by
  have hread : readKey (127 :: cs) = some ((8, 0), cs) := rfl
  rw [readKeys_some hread, if_neg (by decide)]

theorem readKeys_char {c : UInt8} (h : c ≠ 127 ∧ c ≠ 27 ∧ c ≠ 0x23) (cs : List UInt8) :
    readKeys (c :: cs) = (c, 0) :: readKeys cs := by
  have hread : readKey (c :: cs) = some ((c, 0), cs) := by
    simp [readKey, h.1, h.2.1]
  rw [readKeys_some hread, if_neg h.2.2]

theorem promptLoop_eq (p : Prompt) (input : List UInt8) :
    promptLoop p input = p.keys (readKeys input) := by
  fun_induction promptLoop p input with
  | case1 p input h => rw [readKeys_none h, Prompt.keys, List.foldl_nil]
  | case2 p input sc rest h => 
      rw [readKeys_some h, if_pos rfl, Prompt.keys, List.foldl_cons, List.foldl_nil]
  | case3 p input c sc rest h hend ih =>
      rw [readKeys_some h, if_neg hend, ih, Prompt.keys, Prompt.keys, List.foldl_cons]

theorem shows_keys {p : Prompt} {e : Editor} (h : Shows p e) (keys : List (UInt8 × UInt8)) :
    Shows (p.keys keys) (keys.foldl Editor.key e) := by
  induction keys generalizing p e with
  | nil => exact h
  | cons k keys ih => exact ih (shows_key h k.1 k.2)

theorem shows_init (mem : Nat → Nat → UInt8) :
    Shows (Prompt.init mem) Editor.init :=
  ⟨Nat.zero_lt_succ _, show 0 = back 0 0 by decide, Nat.zero_le _, rfl, fun h => absurd rfl h, rfl, rfl, nofun,
    fun k _ _ => Text.clear _⟩

/-- The prompt shows what the editor does with the same keys. -/
theorem cmdPrompt_shows (mem : Nat → Nat → UInt8) (input : List UInt8) :
    Shows (cmdPrompt mem input) ((readKeys input).foldl Editor.key Editor.init) := by
  rw [cmdPrompt, promptLoop_eq]
  exact shows_keys (shows_init mem) _

/-- No line of the history is selected any more when Enter is typed on an empty line. -/
def EntersFromEnd (p : Prompt) : List (UInt8 × UInt8) → Prop
  | [] => True
  | k :: keys =>
    ((edit p.newline k.1 k.2).1 = .enter → p.pos ≠ 0 ∨ p.cl = p.ll) ∧
      EntersFromEnd (p.key k.1 k.2) keys

/-- What the prompt has done with the characters. -/
structure PromptRight (mem : Nat → Nat → UInt8) (input : List UInt8) : Prop where
  inside : (cmdPrompt mem input).pos < SIZE_CMD_ARG_LINE
  /-- The cursor is at the end of the line. -/
  cursor : (cmdPrompt mem input).pos ≠ 0 →
    ((cmdPrompt mem input).line (cmdPrompt mem input).ll).bytes.length = (cmdPrompt mem input).pos
  /-- The lines given to `cmd_parse` are those of the edits. -/
  edits : (cmdPrompt mem input).parsed.map CString.bytes =
    ((readKeys input).foldl Editor.key Editor.init).executed
  /-- The arrow shows the lines in turn when it is typed right after Enter. -/
  recalls : ∀ pre enter k, readKeys input = pre ++ enter :: List.replicate k (0, 72) →
    (edit ((Prompt.init mem).keys pre).newline enter.1 enter.2).1 = .enter →
    0 < k → k ≤ min (cmdPrompt mem input).parsed.length (SIZE_HIST - 1) →
      (cmdPrompt mem input).pos ≠ 0 ∧
        (cmdPrompt mem input).parsed[k - 1]? =
          some ((cmdPrompt mem input).line (cmdPrompt mem input).ll)

theorem entersFromEnd_append {p : Prompt} {pre keys : List (UInt8 × UInt8)}
    (h : EntersFromEnd p (pre ++ keys)) : EntersFromEnd (p.keys pre) keys := by
  induction pre generalizing p with
  | nil => exact h
  | cons k pre ih => exact ih h.2

namespace Editor

theorem key_up (e : Editor) : e.key (0, 72) = e.apply .up := by
  have hkey : e.key (0, 72) = { e.apply .up with newline := e.newline } := rfl
  rw [hkey, ← setNewline_apply]

theorem apply_up_executed (e : Editor) : (e.apply .up).executed = e.executed := by
  simp only [apply]
  split <;> rfl

theorem ups_executed (e : Editor) (k : Nat) :
    ((List.replicate k (0, 72)).foldl key e).executed = e.executed := by
  induction k with
  | zero => rfl
  | succ k ih =>
      rw [List.replicate_succ', List.foldl_append, List.foldl_cons, List.foldl_nil, key_up,
        apply_up_executed, ih]

/-- Going back from the line that is edited. -/
theorem ups {e : Editor} (hsel : e.selected = 0) {k : Nat}
    (hle : k + 1 ≤ min e.executed.length (SIZE_HIST - 1)) :
    (List.replicate (k + 1) (0, 72)).foldl key e =
      { e with line := e.executed.getD k [], selected := k + 1 } := by
  induction k with
  | zero =>
      rw [List.replicate_one, List.foldl_cons, List.foldl_nil, key_up, apply, hsel]
      exact if_pos (by omega)
  | succ k ih =>
      rw [List.replicate_succ', List.foldl_append, ih (by omega), List.foldl_cons, List.foldl_nil,
        key_up, apply]
      exact if_pos (show k + 1 < min e.executed.length (SIZE_HIST - 1) by omega)

end Editor

/-- Right after an Enter that executes a line, or that finds no line of the history selected,
none is. -/
theorem selected_enter {p : Prompt} {e : Editor} (h : Shows p e) {k : UInt8 × UInt8}
    (henter : (edit e.newline k.1 k.2).1 = .enter) (hend : p.pos ≠ 0 ∨ p.cl = p.ll) :
    (e.key k).selected = 0 := by
  simp only [Editor.key, henter, Editor.apply]
  split
  · rename_i hnil
    have hcl := hend.resolve_left (not_not.mpr (h.pos_eq_zero_iff.mpr hnil))
    have hll := h.ll
    have hsel := h.selected
    rw [h.cl] at hcl
    simp only [back, SIZE_HIST] at *
    omega
  · rfl

/-- The prompt does what its keys are for in every run in which Enter is not typed on an empty
line while a line of the history is selected. -/
theorem prompt_right_of_enters (mem : Nat → Nat → UInt8) (input : List UInt8)
    (h : EntersFromEnd (Prompt.init mem) (readKeys input)) : PromptRight mem input := by
  have hshows := cmdPrompt_shows mem input
  refine ⟨hshows.pos_lt, fun hpos => ?_, hshows.parsed, ?_⟩
  · have hline := hshows.line fun hnil => hpos (hshows.pos_eq_zero_iff.mpr hnil)
    rw [hshows.pos]
    exact congrArg List.length hline.ofBuffer
  · intro pre enter k hkeys henter hk hle
    have hpre := shows_keys (shows_init mem) pre
    rw [hkeys] at h hshows
    have hsel := selected_enter hpre (by rw [← hpre.newline]; exact henter)
      ((entersFromEnd_append h).1 henter)
    obtain ⟨k, rfl⟩ := Nat.exists_eq_succ_of_ne_zero hk.ne'
    rw [List.foldl_append, List.foldl_cons] at hshows
    generalize (pre.foldl Editor.key Editor.init).key enter = e at hsel hshows
    have hparsed := hshows.parsed
    rw [Editor.ups_executed] at hparsed
    have hlen : (cmdPrompt mem input).parsed.length = e.executed.length := by
      rw [← hparsed, List.length_map]
    rw [hlen] at hle
    rw [Editor.ups hsel hle] at hshows
    have hne : e.executed.getD k [] ≠ [] := 
      hshows.getD_ne_nil_iff.mpr (show k < e.executed.length by omega)
    have hbytes := (hshows.line hne).ofBuffer
    refine ⟨fun hpos => hne (hshows.pos_eq_zero_iff.mp hpos), ?_⟩
    have hk : k < (cmdPrompt mem input).parsed.length := by omega
    have hexecuted : (cmdPrompt mem input).parsed[k].bytes = e.executed.getD k [] := by
      rw [← hparsed, List.getD_eq_getElem _ _ (by rw [List.length_map]; exact hk),
        List.getElem_map]
    rw [Nat.succ_eq_add_one, Nat.add_sub_cancel, List.getElem?_eq_getElem hk]
    exact congrArg some (CString.ext (hexecuted.trans hbytes.symm))

/-- `a`, Enter, and the arrow up. -/
theorem prompt_right_of_enters_one :
    (cmdPrompt (fun _ _ => 0) [0x61, 0x0d, 27, 91, 0x41]).parsed[0]? =
      some ((cmdPrompt (fun _ _ => 0) [0x61, 0x0d, 27, 91, 0x41]).line
        (cmdPrompt (fun _ _ => 0) [0x61, 0x0d, 27, 91, 0x41]).ll) := by
  have hkeys : readKeys [0x61, 0x0d, 27, 91, 0x41] = [(0x61, 0), (0x0d, 0), (0, 72)] := by
    rw [readKeys_char (by decide), readKeys_char (by decide), readKeys_up, readKeys_none rfl]
  have hright := prompt_right_of_enters (fun _ _ => 0) [0x61, 0x0d, 27, 91, 0x41] (by
    rw [hkeys]
    exact ⟨by decide, by decide, by decide, trivial⟩)
  refine (hright.recalls [(0x61, 0)] (0x0d, 0) 1 hkeys (by decide) Nat.one_pos ?_).2
  rw [cmdPrompt, promptLoop_eq, hkeys]
  decide

/-- `a` and `b` are executed, `b` is recalled and erased, and after another Enter the arrow
shows `a`. -/
theorem emptied_line_loses_history :
    ¬ PromptRight (fun _ _ => 0)
      [0x61, 0x0d, 0x62, 0x0d, 27, 91, 0x41, 127, 0x0d, 27, 91, 0x41] := by
  intro h
  have hkeys : readKeys [0x61, 0x0d, 0x62, 0x0d, 27, 91, 0x41, 127, 0x0d, 27, 91, 0x41] =
      [(0x61, 0), (0x0d, 0), (0x62, 0), (0x0d, 0), (0, 72), (8, 0), (0x0d, 0), (0, 72)] := by
    rw [readKeys_char (by decide), readKeys_char (by decide), readKeys_char (by decide),
      readKeys_char (by decide), readKeys_up, readKeys_delete, readKeys_char (by decide),
      readKeys_up, readKeys_none rfl]
  have hshown := h.recalls
    [(0x61, 0), (0x0d, 0), (0x62, 0), (0x0d, 0), (0, 72), (8, 0)] (0x0d, 0) 1 hkeys
  rw [cmdPrompt, promptLoop_eq, hkeys] at hshown
  revert hshown
  decide +kernel

end Plo.Cmds
