import Plo.Cmds.Cmd

/-!
A script in a file does what the same script does when it is built in. A newline
ends an argument line of `cmd_parse` wherever it stands, so cutting the script
there and parsing the pieces one after the other runs the same commands; that
`cmd_parse` also ends a line at other white space makes no difference.
-/
namespace Plo.Cmds
open Phfs
variable {σ : Type}

section Newline
variable (a b : List UInt8)

theorem takeWhile_isgraph_newline :
    (a ++ newline :: b).takeWhile isgraph = a.takeWhile isgraph := by
  induction a with
  | nil => rfl
  | cons c a ih => simp only [List.cons_append, List.takeWhile_cons, ih]

theorem argument_newline (room : Nat) :
    argument (a ++ newline :: b) room = argument a room := by
  simp only [argument, takeWhile_isgraph_newline]

/-- An argument line ends at the latest at a newline: it is cut in the same
arguments, and what is left is what was left before the newline, or the text
behind it when nothing was. -/
theorem parseArgs_newline (room : Nat) (argv : List CString) :
    match parseArgs a room argv with
    | .error err => parseArgs (a ++ newline :: b) room argv = .error err
    | .ok (args, rest) =>
        parseArgs (a ++ newline :: b) room argv = .ok (args, rest ++ newline :: b) ∨
          rest = [] ∧ parseArgs (a ++ newline :: b) room argv = .ok (args, b) := by
  fun_induction parseArgs a room argv with
  | case1 room argv =>
      refine Or.inr ⟨rfl, ?_⟩
      rw [List.nil_append, parseArgs, if_pos (by decide), if_neg (by decide)]
  | case2 room argv c cs hspace hblank ih =>
      rw [List.cons_append, parseArgs, if_pos hspace, if_pos hblank]
      exact ih
  | case3 room argv c cs hspace hblank =>
      refine Or.inl ?_
      rw [List.cons_append, parseArgs, if_pos hspace, if_neg hblank]
  | case4 room argv c cs hspace hargc =>
      simp only [List.cons_append, parseArgs, if_neg hspace, if_pos hargc]
  | case5 room argv c cs hspace hargc arg hroom =>
      have harg := argument_newline (c :: cs) b room
      rw [List.cons_append] at harg
      simp only [List.cons_append, parseArgs, if_neg hspace, if_neg hargc, harg]
      rw [if_pos hroom]
  | case6 room argv c cs hspace hargc arg hroom ih =>
      have harg := argument_newline (c :: cs) b room
      rw [List.cons_append] at harg
      have hstep : parseArgs (c :: cs ++ newline :: b) room argv =
          parseArgs ((c :: cs).drop arg.bytes.length ++ newline :: b)
            (room - arg.bytes.length - 1) (argv ++ [arg]) := by
        rw [← List.drop_append_of_le_length (length_argument_le (c :: cs) room)]
        rw [List.cons_append, parseArgs, if_neg hspace, if_neg hargc]
        simp only [harg]
        rw [if_neg hroom]
      rw [hstep]
      exact ih

end Newline

section Parse
variable (cmds : List (Command σ))

theorem andThen_error {o : Outcome σ} {res : Int} (h : o.res = some res) (hneg : res < 0)
    (next : σ → Outcome σ) : o.andThen next = o := by
  simp only [Outcome.andThen, h]
  rw [if_pos (Int.ne_of_lt hneg), if_pos hneg, ← h]

theorem andThen_ok {o : Outcome σ} (h : o.res = some 0) (next : σ → Outcome σ) :
    o.andThen next =
      { next o.state with executed := o.executed ++ (next o.state).executed } := by
  simp only [Outcome.andThen, h]
  rw [if_neg (by simp)]

theorem andThen_assoc (o : Outcome σ) (f g : σ → Outcome σ) :
    (o.andThen f).andThen g = o.andThen fun s => (f s).andThen g := by
  cases o with
  | mk s executed res =>
      cases res with
      | none => rfl
      | some res =>
          by_cases hres : res = 0
          · subst hres
            have hgo := fun next : σ → Outcome σ =>
              andThen_ok (o := ⟨s, executed, some 0⟩) rfl next
            rw [hgo, hgo]
            cases hf : f s with
            | mk s' executed' res' =>
                cases res' with
                | none => simp [Outcome.andThen]
                | some res' =>
                    simp only [Outcome.andThen]
                    split
                    · rfl
                    · simp
          · have hneg : (if res < 0 then res else -EINVAL) < 0 := by
              simp only [EINVAL]
              split <;> omega
            have hstop : ∀ next : σ → Outcome σ, (⟨s, executed, some res⟩ : Outcome σ).andThen next =
                ⟨s, executed, some (if res < 0 then res else -EINVAL)⟩ := by
              intro next
              simp only [Outcome.andThen]
              rw [if_pos hres]
            rw [hstop, hstop]
            exact andThen_error rfl hneg g

theorem parseArgs_error {lines : List UInt8} {room : Nat} {argv : List CString} {err : Int}
    (h : parseArgs lines room argv = .error err) : err < 0 ∧ err ≠ endOfScript := by
  fun_induction parseArgs lines room argv with
  | case1 | case3 => cases h
  | case2 _ _ _ _ _ _ ih => exact ih h
  | case4 | case5 =>
      cases h
      decide
  | case6 _ _ _ _ _ _ _ _ ih => exact ih h

theorem parse_error {lines : List UInt8} {argc : Int} (h : parseArgLine lines = .error argc)
    (s : σ) : parse cmds s lines = ⟨s, [], some (if argc = endOfScript then EOK else argc)⟩ := by
  rw [parse]
  split
  · next h' => cases h.symm.trans h'; rfl
  · next h' => cases h.symm.trans h'

theorem parse_ok {lines rest : List UInt8} {argv : List CString}
    (h : parseArgLine lines = .ok (argv, rest)) (s : σ) :
    parse cmds s lines =
      if argv = [] then parse cmds s rest
      else (launch cmds s argv).andThen fun s => parse cmds s rest := by
  rw [parse]
  split
  · next h' => cases h.symm.trans h'
  · next h' => cases h.symm.trans h'; rfl

theorem parse_nil (s : σ) : parse cmds s [] = ⟨s, [], some EOK⟩ := by
  have hline : parseArgLine [] = .error endOfScript := rfl
  rw [parse_error cmds hline, if_pos rfl]

theorem parse_newline_cons (b : List UInt8) (s : σ) :
    parse cmds s (newline :: b) = parse cmds s b := by
  have hline : parseArgLine (newline :: b) = .ok ([], b) := by
    rw [parseArgLine, if_neg (by simp), parseArgs, if_pos (by decide), if_neg (by decide)]
  rw [parse_ok cmds hline, if_pos rfl]

/-- Parsing a script that is cut at a newline: the piece before it first, and
then, if that succeeds, the piece behind it. -/
theorem parse_newline (a b : List UInt8) (s : σ) :
    parse cmds s (a ++ newline :: b) = (parse cmds s a).andThen fun s => parse cmds s b := by
  -- on the length: every argument line of the first piece is followed by a shorter one
  generalize hn : a.length = n
  induction n using Nat.strongRecOn generalizing a s with
  | ind n ih =>
      have hnil (s : σ) : parse cmds s b = (parse cmds s []).andThen fun s => parse cmds s b := by
        rw [parse_nil, andThen_ok rfl]
        rfl
      by_cases ha : a = []
      · subst ha
        rw [List.nil_append, parse_newline_cons, ← hnil]
      · have hcut := parseArgs_newline a b SIZE_CMD_ARG_LINE []
        have hline : parseArgLine a = parseArgs a SIZE_CMD_ARG_LINE [] := if_neg ha
        have hline' : parseArgLine (a ++ newline :: b) =
            parseArgs (a ++ newline :: b) SIZE_CMD_ARG_LINE [] := if_neg (by simp)
        rw [← hline, ← hline'] at hcut
        cases h : parseArgLine a with
        | error err =>
            rw [h] at hcut
            obtain ⟨hneg, hend⟩ := parseArgs_error (hline ▸ h)
            rw [parse_error cmds hcut, parse_error cmds h, if_neg hend, andThen_error rfl hneg]
        | ok line =>
            obtain ⟨argv, rest⟩ := line
            rw [h] at hcut
            have hrest : ∃ rest', parseArgLine (a ++ newline :: b) = .ok (argv, rest') ∧
                ∀ s, parse cmds s rest' = (parse cmds s rest).andThen fun s => parse cmds s b := by
              cases hcut with
              | inl hcut =>
                  exact ⟨_, hcut, fun s => ih _ (hn ▸ parseArgLine_shorter h) rest s rfl⟩
              | inr hcut =>
                  obtain ⟨hempty, hcut⟩ := hcut
                  exact ⟨b, hcut, fun s => hempty ▸ hnil s⟩
            obtain ⟨rest', hcut', hrest⟩ := hrest
            rw [parse_ok cmds hcut', parse_ok cmds h]
            split
            · exact hrest s
            · rw [andThen_assoc]
              congr 1
              funext s
              exact hrest s

theorem andThen_nonpos (o : Outcome σ) {next : σ → Outcome σ}
    (hnext : ∀ s res, (next s).res = some res → res ≤ 0) {res : Int}
    (h : (o.andThen next).res = some res) : res ≤ 0 := by
  simp only [Outcome.andThen] at h
  split at h
  · next hnone => cases hnone.symm.trans h
  · split at h
    · cases h
      simp only [EINVAL]
      split <;> omega
    · exact hnext _ _ h

theorem parse_nonpos (s : σ) (lines : List UInt8) {res : Int}
    (h : (parse cmds s lines).res = some res) : res ≤ 0 := by
  generalize hn : lines.length = n
  induction n using Nat.strongRecOn generalizing lines s res with
  | ind n ih =>
      cases hline : parseArgLine lines with
      | error argc =>
          rw [parse_error cmds hline] at h
          cases h
          split
          · exact Int.le_refl _
          · next hend =>
            simp only [parseArgLine] at hline
            split at hline
            · cases hline
              exact absurd rfl hend
            · exact Int.le_of_lt (parseArgs_error hline).1
      | ok line =>
          obtain ⟨argv, rest⟩ := line
          have hshort := hn ▸ parseArgLine_shorter hline
          rw [parse_ok cmds hline] at h
          split at h
          · exact ih _ hshort s rest h rfl
          · exact andThen_nonpos _ (fun s res hres => ih _ hshort s rest hres rfl) h

/-- What `cmd_call` makes of the result of its last piece. -/
theorem parse_andThen_done (s : σ) (lines : List UInt8) :
    ((parse cmds s lines).andThen fun s => ⟨s, [], some EOK⟩) = parse cmds s lines := by
  cases hres : (parse cmds s lines).res with
  | none => simp only [Outcome.andThen, hres]
  | some res =>
      by_cases hzero : res = 0
      · subst hzero
        rw [andThen_ok hres, List.append_nil]
        exact Outcome.ext rfl rfl hres.symm
      · have := parse_nonpos cmds s lines hres
        exact andThen_error hres (by omega) _

end Parse

section Call
variable (cmds : List (Command σ)) (files : Files σ)

/-- The file behind a handle holds these bytes in every state. -/
def Holds (h : Handler) (file : List UInt8) : Prop :=
  ∀ s offs len, files.phfsRead s h offs len = .ok ((file.drop offs).take len)

variable {files} {h : Handler} {file : List UInt8}

/-- The text is followed by the end of the file or by a NUL. -/
def Ends (tail : List UInt8) : Prop := ∀ c ∈ tail.head?, c = 0

theorem read_cons (hfile : Holds files h file) {offs : Nat} {c : UInt8} {rest : List UInt8}
    (hdrop : file.drop offs = c :: rest) (s : σ) : files.phfsRead s h offs 1 = .ok [c] := by
  rw [hfile, hdrop]
  rfl

theorem read_nil (hfile : Holds files h file) {offs : Nat} (hdrop : file.drop offs = [])
    (s : σ) : files.phfsRead s h offs 1 = .ok [] := by
  rw [hfile, hdrop]
  rfl

theorem cmdParse_buffer (s : σ) {buff : List UInt8} (hbuff : 0 ∉ buff) :
    cmdParse cmds s (CString.ofBuffer (buff ++ [0])) = parse cmds s buff := by
  rw [cmdParse, ofBuffer_append hbuff]

/-- A text without a newline is the beginning of a line. -/
theorem exists_line_of_start {a : List UInt8} (ha : newline ∉ a) (b : List UInt8) :
    ∃ l ∈ (a ++ b).splitOn newline, a.length ≤ l.length := by
  by_cases hb : newline ∈ b
  · obtain ⟨as, bs, rfl, has⟩ := List.eq_append_cons_of_mem hb
    refine ⟨a ++ as, ?_, by simp⟩
    rw [← List.append_assoc, List.splitOn_append_cons_self_of_not_mem (by simp [ha, has])]
    exact List.mem_cons_self
  · refine ⟨a ++ b, ?_, by simp⟩
    rw [List.splitOn_eq_singleton (by simp [ha, hb])]
    exact List.mem_singleton_self _

/-- The loop of `cmd_call` with the line `buff` read and the text `text` to come. -/
theorem callLoop_eq (hfile : Holds files h file) {tail : List UInt8} (htail : Ends tail)
    (text : List UInt8) (fuel : Nat) (s : σ) (offs : Nat) (buff : List UInt8)
    (hdrop : file.drop offs = text ++ tail) (hfuel : text.length < fuel)
    (hnul : 0 ∉ buff ++ text) (hbuff : newline ∉ buff)
    (hlines : ∀ l ∈ (buff ++ text).splitOn newline, l.length ≤ SIZE_CMD_ARG_LINE - 1) :
    callLoop cmds files h fuel s offs buff = parse cmds s (buff ++ text) := by
  induction text generalizing fuel s offs buff with
  | nil =>
      obtain ⟨fuel, rfl⟩ := Nat.exists_eq_add_of_lt hfuel
      rw [List.append_nil] at hnul ⊢
      cases tail with
      | nil =>
          simp only [callLoop, read_nil hfile hdrop]
          rw [cmdParse_buffer cmds s hnul, parse_andThen_done]
      | cons c tail =>
          have hc : c = 0 := htail c rfl
          simp only [callLoop, read_cons hfile hdrop]
          rw [if_pos (Or.inr hc), cmdParse_buffer cmds s hnul]
          simp only [if_pos hc]
          exact parse_andThen_done cmds s buff
  | cons c text ih =>
      obtain ⟨fuel, rfl⟩ := Nat.exists_eq_add_of_lt hfuel
      have hnext : file.drop (offs + 1) = text ++ tail := by
        rw [← List.drop_drop, hdrop]
        rfl
      have hc : c ≠ 0 := by
        intro h0
        exact hnul (by simp [h0])
      simp only [callLoop, read_cons hfile hdrop, List.length_singleton]
      by_cases hnl : c = newline
      · subst hnl
        have hnul' : 0 ∉ buff ∧ 0 ∉ text := by
          simp only [List.mem_append, List.mem_cons, not_or] at hnul
          exact ⟨hnul.1, hnul.2.2⟩
        rw [List.splitOn_append_cons_self_of_not_mem hbuff] at hlines
        rw [if_pos (Or.inl rfl), cmdParse_buffer cmds s hnul'.1, parse_newline]
        congr 1
        funext s
        rw [if_neg hc]
        exact ih _ s (offs + 1) [] hnext (by rw [List.length_cons]; omega) hnul'.2 List.not_mem_nil
          (fun l hl => hlines l (List.mem_cons_of_mem _ hl))
      · rw [if_neg (by simp [hnl, hc])]
        have hcat : buff ++ c :: text = buff ++ [c] ++ text := by simp
        rw [hcat] at hnul hlines ⊢
        have hroom : buff.length ≠ SIZE_CMD_ARG_LINE - 1 := by
          obtain ⟨l, hl, hlen⟩ := exists_line_of_start (a := buff ++ [c]) (by simp [hbuff, Ne.symm hnl]) text
          have := hlines l hl
          rw [List.length_append, List.length_singleton] at hlen
          omega
        rw [if_neg hroom]
        refine ih _ s (offs + 1) (buff ++ [c]) hnext (by rw [List.length_cons]; omega) hnul ?_ hlines
        simp [hbuff, Ne.symm hnl]

end Call

/-- A script of lines that fit the buffer, stored behind its magic in a file that
keeps its content, up to the end of the file or to a NUL: `cmd_call` runs the
commands that `cmd_parse` runs on the whole text and returns the same. -/
theorem cmdCall_runs_script (cmds : List (Command σ)) (files : Files σ) (s : σ)
    (call dev name magic : CString) (h : Handler) (m tail : List UInt8) (text : CString) (fuel : Nat)
    (hopen : files.phfsOpen s dev name = .ok h) (hfile : Holds files h (m ++ text.bytes ++ tail))
    (hm : m.length = SIZE_MAGIC_NB) (hmagic : CString.ofBuffer (m ++ [0]) = magic)
    (htail : Ends tail)
    (hlines : ∀ l ∈ text.bytes.splitOn newline, l.length ≤ SIZE_CMD_ARG_LINE - 1)
    (hfuel : text.bytes.length < fuel) :
    cmdCall cmds files fuel s [call, dev, name, magic] = cmdParse cmds s text := by
  have hread : files.phfsRead s h 0 SIZE_MAGIC_NB = .ok m := by
    rw [hfile, List.drop_zero, List.append_assoc, ← hm, List.take_left]
  simp only [cmdCall, hopen, hread]
  rw [if_neg (by simp [hm]), if_neg (by simp [hmagic])]
  have hdrop : (m ++ text.bytes ++ tail).drop m.length = text.bytes ++ tail := by
    rw [List.append_assoc, List.drop_left]
  exact callLoop_eq cmds hfile htail text.bytes fuel s m.length [] hdrop hfuel text.noNul
    List.not_mem_nil hlines

/-- A device with one file. -/
def oneFile (file : List UInt8) : Files σ :=
  ⟨fun _ _ _ => .ok ⟨0, 0⟩, fun _ _ offs len => .ok ((file.drop offs).take len)⟩

/-- A command `a` that counts its arguments and fails when it has three. -/
def countArgs : Command Nat :=
  ⟨⟨[0x61], by decide⟩, fun s argv => some (s + argv.length, if argv.length = 3 then 1 else 0)⟩

/-- The lines `a b`, an empty one and `a`, the last one without a newline. -/
def threeLines : CString := ⟨[0x61, 0x20, 0x62, 0x0a, 0x0a, 0x61], by decide⟩

def eights : CString := ⟨List.replicate 8 0x38, by decide⟩

theorem cmdCall_runs_script_threeLines :
    cmdCall [countArgs] (oneFile (List.replicate 8 0x38 ++ threeLines.bytes ++ [0, 1])) 7 0
        [eights, eights, eights, eights] =
      cmdParse [countArgs] 0 threeLines :=
  cmdCall_runs_script [countArgs] _ 0 eights eights eights eights ⟨0, 0⟩ _ [0, 1] threeLines 7 rfl
    (fun _ _ _ => rfl) rfl (by decide) (by simp [Ends]) (by decide) (by decide)

end Plo.Cmds
