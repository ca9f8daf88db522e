import Plo.Cmds.ArgLine
import Plo.Cmds.Script

/-!
What a line of a script is parsed to. Its words are the maximal runs of graphic
characters. A line of graphic characters and blanks that is not too long gives its words; a
line with too many words, or with any other byte, is an error.
-/
namespace Plo.Cmds

/-- The maximal runs of graphic characters. -/
def words (line : List UInt8) : List (List UInt8) :=
  (line.splitOnP fun c => !isgraph c).filter (· ≠ [])

/-- What ends a line: a white space that is no blank, or the end of the script. -/
def EndsLine (rest : List UInt8) : Prop :=
  ∀ c ∈ rest.head?, isspace c = true ∧ isblank c = false

theorem words_nil : words [] = [] := by decide

theorem words_cons_of_not_isgraph {c : UInt8} (h : isgraph c = false) (line : List UInt8) :
    words (c :: line) = words line := by
  simp [words, List.splitOnP_cons_eq_if_modifyHead, h]

/-- A word at the beginning of a line. -/
theorem words_append {run rest : List UInt8} (hrun : ∀ c ∈ run, isgraph c = true) (hne : run ≠ [])
    (hrest : ∀ c ∈ rest.head?, isgraph c = false) : words (run ++ rest) = run :: words rest := by
  have hsep : ∀ c ∈ run, (!isgraph c) = false := fun c hc => by rw [hrun c hc]; rfl
  cases rest with
  | nil =>
      rw [List.append_nil, words_nil, words, List.splitOnP_eq_singleton hsep]
      simp [hne]
  | cons c rest =>
      have hc : isgraph c = false := hrest c rfl
      rw [words_cons_of_not_isgraph hc, words,
        List.splitOnP_append_cons_of_forall_mem hsep c (by rw [hc]; rfl)]
      simp [hne, words]

theorem isgraph_of_isspace {c : UInt8} (h : isspace c = true) : isgraph c = false := by
  simp only [isspace, isblank, newline, Bool.or_eq_true, beq_iff_eq, Bool.and_eq_true,
    decide_eq_true_eq] at h
  have hle : ¬ 0x20 < c := by
    rcases h with (rfl | rfl) | h
    · decide
    · decide
    · exact UInt8.not_lt.mpr (UInt8.le_trans h.2 (by decide))
  simp [isgraph, hle]

theorem isspace_of_isblank {c : UInt8} (h : isblank c = true) : isspace c = true := by
  rw [isspace, h, Bool.true_or]

section Line
variable {line rest : List UInt8} {room : Nat} {argv : List CString}

/-- The first argument of a line is its first word, or nothing. -/
theorem takeWhile_line (hrest : EndsLine rest) :
    (line ++ rest).takeWhile isgraph = line.takeWhile isgraph := by
  induction line with
  | nil =>
      cases rest with
      | nil => rfl
      | cons c rest =>
          have hc := isgraph_of_isspace (hrest c rfl).1
          rw [List.nil_append, List.takeWhile_cons_of_neg (by rw [hc]; decide), List.takeWhile_nil]
  | cons c line ih =>
      rw [List.cons_append, List.takeWhile_cons, List.takeWhile_cons, ih]

theorem drop_line (line rest : List UInt8) :
    (line ++ rest).drop (line.takeWhile isgraph).length = line.dropWhile isgraph ++ rest := by
  have hsplit : line.takeWhile isgraph ++ line.dropWhile isgraph = line :=
    List.takeWhile_append_dropWhile
  have hdrop : (line.takeWhile isgraph ++ line.dropWhile isgraph ++ rest).drop
      (line.takeWhile isgraph).length = line.dropWhile isgraph ++ rest := by
    rw [List.append_assoc, List.drop_left]
  rwa [hsplit] at hdrop

theorem head_dropWhile (line : List UInt8) :
    ∀ c ∈ (line.dropWhile isgraph).head?, isgraph c = false := by
  intro c hc
  have hnot := List.head?_dropWhile_not isgraph line
  rw [Option.mem_def.mp hc] at hnot
  exact hnot

/-- The words of a line that starts with one. -/
theorem words_of_isgraph {c : UInt8} (hc : isgraph c = true) (line : List UInt8) :
    words (c :: line) = (c :: line).takeWhile isgraph :: words ((c :: line).dropWhile isgraph) := by
  have hsplit : (c :: line).takeWhile isgraph ++ (c :: line).dropWhile isgraph = c :: line :=
    List.takeWhile_append_dropWhile
  have hne : (c :: line).takeWhile isgraph ≠ [] := by
    rw [List.takeWhile_cons_of_pos hc]
    exact List.cons_ne_nil _ _
  have hwords := words_append (fun d hd => List.mem_takeWhile_imp hd) hne (head_dropWhile (c :: line))
  rwa [hsplit] at hwords

/-- What is needed of the buffer: a NUL comes behind every word, but only the one behind the
last word is not in place of a blank. -/
def roomFor (line : List UInt8) : Nat := line.length + if line.head?.any isgraph then 1 else 0

theorem roomFor_le (line : List UInt8) : roomFor line ≤ line.length + 1 := by
  rw [roomFor]
  split <;> omega

theorem roomFor_of_head (h : ∀ c ∈ line.head?, isgraph c = false) : roomFor line = line.length := by
  cases line with
  | nil => rfl
  | cons c line => simp [roomFor, h c rfl]

theorem roomFor_of_isgraph {c : UInt8} (hc : isgraph c = true) (line : List UInt8) :
    roomFor (c :: line) = (c :: line).length + 1 := by
  simp [roomFor, hc]

/-- An argument that the buffer holds is the first word as a whole. -/
theorem argument_line (hrest : EndsLine rest)
    (hroom : ¬ room ≤ (argument (line ++ rest) room).bytes.length) :
    (argument (line ++ rest) room).bytes = line.takeWhile isgraph := by
  simp only [argument, takeWhile_line hrest, List.length_take] at hroom ⊢
  exact List.take_of_length_le (by omega)

theorem length_argument_line (hrest : EndsLine rest) :
    (argument (line ++ rest) room).bytes.length ≤ (line.takeWhile isgraph).length := by
  simp only [argument, takeWhile_line hrest, List.length_take]
  exact Nat.min_le_right _ _

/-- What is no space at the front of the script starts a word of the line. -/
theorem line_of_not_isspace {c : UInt8} {cs : List UInt8} (hrest : EndsLine rest)
    (hline : ∀ c ∈ line, isgraph c = true ∨ isblank c = true) (hlines : c :: cs = line ++ rest)
    (hspace : ¬ isspace c = true) : isgraph c = true ∧ ∃ tail, line = c :: tail := by
  cases line with
  | nil => exact absurd (hrest c (by rw [← List.nil_append rest, ← hlines]; rfl)).1 hspace
  | cons d line =>
      cases hlines
      refine ⟨(hline c (.head _)).resolve_right fun hblank => ?_, line, rfl⟩
      exact hspace (isspace_of_isblank hblank)

/-- A line of graphic characters and blanks gives its words. -/
theorem parseArgs_words {lines : List UInt8} (room : Nat) (argv : List CString)
    (hlines : lines = line ++ rest) (hrest : EndsLine rest)
    (hline : ∀ c ∈ line, isgraph c = true ∨ isblank c = true)
    (hargc : argv.length + (words line).length < SIZE_CMD_ARGV) (hroom : roomFor line ≤ room) :
    ∃ args : List CString, parseArgs lines room argv = .ok (argv ++ args, rest.tail) ∧
      args.map CString.bytes = words line := by
  fun_induction parseArgs lines room argv generalizing line with
  | case1 room argv =>
      obtain ⟨rfl, rfl⟩ := List.append_eq_nil_iff.mp hlines.symm
      exact ⟨[], by rw [List.append_nil, List.tail_nil], words_nil.symm⟩
  | case2 room argv c cs hspace hblank ih =>
      cases line with
      | nil =>
          cases hlines
          rw [(hrest c rfl).2] at hblank
          cases hblank
      | cons d line =>
          cases hlines
          rw [words_cons_of_not_isgraph (isgraph_of_isspace hspace)] at hargc ⊢
          refine ih rfl (fun d hd => hline d (.tail _ hd)) hargc ?_
          have hle := roomFor_le line
          have hroom' : line.length + 1 ≤ room := (Nat.le_add_right _ _).trans hroom
          omega
  | case3 room argv c cs hspace hblank =>
      cases line with
      | nil =>
          cases hlines
          exact ⟨[], by rw [List.append_nil, List.tail_cons], words_nil.symm⟩
      | cons d line =>
          cases hlines
          have hgraph := (hline c (.head _)).resolve_right hblank
          rw [isgraph_of_isspace hspace] at hgraph
          cases hgraph
  | case4 room argv c cs hspace hfull =>
      obtain ⟨hgraph, tail, rfl⟩ := line_of_not_isspace hrest hline hlines hspace
      rw [words_of_isgraph hgraph, List.length_cons] at hargc
      omega
  | case5 room argv c cs hspace =>
      rename_i arg hfull
      -- a NUL fits behind the word
      obtain ⟨hgraph, tail, rfl⟩ := line_of_not_isspace hrest hline hlines hspace
      have hword : arg.bytes.length ≤ ((c :: tail).takeWhile isgraph).length := by
        simp only [arg, hlines]
        exact length_argument_line hrest
      have hle := (List.takeWhile_sublist (l := c :: tail) isgraph).length_le
      have hneed := roomFor_of_isgraph hgraph tail
      omega
  | case6 room argv c cs hspace =>
      rename_i arg hfits ih
      obtain ⟨hgraph, tail, rfl⟩ := line_of_not_isspace hrest hline hlines hspace
      have hword : arg.bytes = (c :: tail).takeWhile isgraph := by
        simp only [arg, hlines] at hfits ⊢
        exact argument_line hrest hfits
      have hlen : arg.bytes.length + ((c :: tail).dropWhile isgraph).length =
          (c :: tail).length := by
        rw [hword, ← List.length_append, List.takeWhile_append_dropWhile]
      have hneed := roomFor_of_isgraph hgraph tail
      rw [words_of_isgraph hgraph, List.length_cons] at hargc
      have hdrop : (c :: cs).drop arg.bytes.length = (c :: tail).dropWhile isgraph ++ rest := by
        rw [hlines, hword, drop_line]
      have hargc' : (argv ++ [arg]).length + (words ((c :: tail).dropWhile isgraph)).length <
          SIZE_CMD_ARGV := by
        rw [List.length_append, List.length_singleton]
        omega
      have hroom' : roomFor ((c :: tail).dropWhile isgraph) ≤ room - arg.bytes.length - 1 := by
        rw [roomFor_of_head (head_dropWhile _)]
        omega
      obtain ⟨args, hargs, hwords⟩ := ih hdrop
        (fun d hd => hline d ((List.dropWhile_sublist _).subset hd)) hargc' hroom'
      refine ⟨arg :: args, ?_, ?_⟩
      · rw [hargs, List.append_assoc, List.singleton_append]
      · rw [List.map_cons, hword, hwords, words_of_isgraph hgraph]

/-- Too many words behind `n` arguments, or a byte that is neither graphic nor a space. -/
def BadLine (n : Nat) (line : List UInt8) : Prop :=
  SIZE_CMD_ARGV ≤ n + (words line).length ∨ ∃ c ∈ line, isgraph c = false ∧ isspace c = false

theorem not_badLine_nil {n : Nat} (hn : n < SIZE_CMD_ARGV) : ¬ BadLine n [] := by
  rintro (hmany | ⟨_, hmem, -⟩)
  · rw [words_nil, List.length_nil] at hmany
    omega
  · cases hmem

theorem BadLine.blank {n : Nat} {c : UInt8} (h : BadLine n (c :: line)) (hc : isspace c = true) :
    BadLine n line := by
  rw [BadLine, words_cons_of_not_isgraph (isgraph_of_isspace hc)] at h
  refine h.imp_right ?_
  rintro ⟨d, hd, hbyte⟩
  cases hd with
  | head => rw [hc] at hbyte; cases hbyte.2
  | tail _ hd => exact ⟨d, hd, hbyte⟩

/-- Leaving a word behind, or nothing when there is none. -/
theorem BadLine.word {n : Nat} (h : BadLine n line) : BadLine (n + 1) (line.dropWhile isgraph) := by
  cases h with
  | inl hmany =>
      left
      cases line with
      | nil =>
          rw [List.dropWhile_nil]
          omega
      | cons c line =>
          cases hgraph : isgraph c with
          | true =>
              rw [words_of_isgraph hgraph, List.length_cons] at hmany
              omega
          | false =>
              rw [List.dropWhile_cons_of_neg (by rw [hgraph]; decide)]
              omega
  | inr hbyte =>
      obtain ⟨c, hc, hgraph, hspace⟩ := hbyte
      refine .inr ⟨c, ?_, hgraph, hspace⟩
      rw [← List.takeWhile_append_dropWhile (p := isgraph) (l := line), List.mem_append] at hc
      refine hc.resolve_left fun htake => ?_
      rw [List.mem_takeWhile_imp htake] at hgraph
      cases hgraph

/-- A bad line is an error. -/
theorem parseArgs_badLine {lines : List UInt8} (room : Nat) (argv : List CString) (hlines : lines = line ++ rest)
    (hrest : EndsLine rest) (hline : ∀ c ∈ line, isspace c = true → isblank c = true)
    (hargc : argv.length < SIZE_CMD_ARGV) (hbad : BadLine argv.length line) :
    ∃ res, parseArgs lines room argv = .error res := by
  fun_induction parseArgs lines room argv generalizing line with
  | case1 room argv =>
      obtain ⟨rfl, rfl⟩ := List.append_eq_nil_iff.mp hlines.symm
      exact absurd hbad (not_badLine_nil hargc)
  | case2 room argv c cs hspace hblank ih =>
      cases line with
      | nil => exact absurd hbad (not_badLine_nil hargc)
      | cons d line =>
          cases hlines
          exact ih rfl (fun d hd => hline d (.tail _ hd)) hargc (hbad.blank hspace)
  | case3 room argv c cs hspace hblank =>
      cases line with
      | nil => exact absurd hbad (not_badLine_nil hargc)
      | cons d line =>
          cases hlines
          exact absurd (hline c (.head _) hspace) hblank
  | case4 | case5 => exact ⟨_, rfl⟩
  | case6 room argv c cs hspace hargc' =>
      rename_i arg hroom ih
      have hword : arg.bytes = line.takeWhile isgraph := by
        simp only [arg, hlines] at hroom ⊢
        exact argument_line hrest hroom
      have hdrop : (c :: cs).drop arg.bytes.length = line.dropWhile isgraph ++ rest := by
        rw [hlines, hword, drop_line]
      refine ih hdrop ?_ ?_ ?_
      · exact fun d hd => hline d ((List.dropWhile_sublist _).subset hd)
      · rw [List.length_append, List.length_singleton]
        omega
      · rw [List.length_append, List.length_singleton]
        exact hbad.word

end Line

theorem parseArgs_isSuffix {lines : List UInt8} {room : Nat} {argv : List CString}
    {line : List CString × List UInt8} (h : parseArgs lines room argv = .ok line) :
    line.2 <:+ lines := by
  fun_induction parseArgs lines room argv with
  | case1 room argv =>
      cases h
      exact List.suffix_refl _
  | case2 room argv c cs hspace hblank ih => exact (ih h).trans (List.suffix_cons _ _)
  | case3 room argv c cs hspace hblank =>
      cases h
      exact List.suffix_cons _ _
  | case4 | case5 => cases h
  | case6 room argv c cs hspace hargc arg hroom ih => exact (ih h).trans (List.drop_suffix _ _)

theorem parseArgLine_isSuffix {lines : List UInt8} {line : List CString × List UInt8}
    (h : parseArgLine lines = .ok line) : line.2 <:+ lines := by
  rw [parseArgLine] at h
  split at h
  · cases h
  · exact parseArgs_isSuffix h

theorem parseArgLine_error {lines : List UInt8} {res : Int} (h : parseArgLine lines = .error res) :
    res < 0 := by
  rw [parseArgLine] at h
  split at h
  · cases h
    decide
  · exact (parseArgs_error h).1

/-- A script ends when its commands do. -/
theorem parse_ends {σ : Type} {cmds : List (Command σ)}
    (hcmds : ∀ cmd ∈ cmds, ∀ s argv, cmd.run s argv ≠ none) (s : σ) (lines : List UInt8) :
    (parse cmds s lines).res ≠ none := by
  have hlaunch : ∀ s argv, (launch cmds s argv).res ≠ none := by
    intro s argv
    simp only [launch]
    split
    · exact Option.some_ne_none _
    · rename_i cmd hcmd
      have hrun := hcmds cmd (List.mem_of_find?_eq_some hcmd) s argv
      split
      · rename_i hnone
        exact absurd hnone hrun
      · exact Option.some_ne_none _
  -- on the length: what is left of the script is shorter
  generalize hn : lines.length = n
  induction n using Nat.strongRecOn generalizing lines s with
  | ind n ih =>
      cases hline : parseArgLine lines with
      | error argc =>
          rw [parse_error cmds hline]
          exact Option.some_ne_none _
      | ok line =>
          obtain ⟨argv, rest⟩ := line
          have hshort := hn ▸ parseArgLine_shorter hline
          rw [parse_ok cmds hline]
          split
          · exact ih _ hshort s rest rfl
          · simp only [Outcome.andThen]
            split
            · rename_i hnone
              exact absurd hnone (hlaunch s argv)
            · split
              · exact Option.some_ne_none _
              · exact ih _ hshort _ rest rfl

/-- What `cmd_parseArgLine` does with a script, on any buffers. -/
structure ArgLineRight (script : CString) (parsed : ArgLine × Int) : Prop where
  /-- A line of graphic characters and blanks, with few words and not too long. -/
  accepts : ∀ line rest, script.bytes = line ++ rest → EndsLine rest → script.bytes ≠ [] →
    (∀ c ∈ line, isgraph c = true ∨ isblank c = true) → (words line).length < SIZE_CMD_ARGV →
    line.length ≤ SIZE_CMD_ARG_LINE - 1 →
      parsed.2 = (words line).length ∧ parsed.1.lines = rest.tail ∧
        parsed.1.argv (words line).length = none ∧
        ∀ i (hi : i < (words line).length),
          ∃ p, parsed.1.argv i = some p ∧ (parsed.1.stringAt p).bytes = (words line).get ⟨i, hi⟩
  /-- A line with more words, or with a byte that is neither graphic nor white space. -/
  rejects : ∀ line rest, script.bytes = line ++ rest → EndsLine rest →
    (∀ c ∈ line, isspace c = true → isblank c = true) →
    (SIZE_CMD_ARGV ≤ (words line).length ∨ ∃ c ∈ line, isgraph c = false ∧ isspace c = false) →
      parsed.2 < 0 ∧ parsed.2 ≠ endOfScript ∧
        ∀ (σ : Type) (cmds : List (Command σ)) (s : σ),
          cmdParse cmds s script = ⟨s, [], some parsed.2⟩
  inside : parsed.1.Inside
  /-- It gets on with the script unless it ends with an error or at the end of the script. -/
  advances : 0 ≤ parsed.2 →
    parsed.1.lines <:+ script.bytes ∧ parsed.1.lines.length < script.bytes.length

/-- Every script is parsed line by line into the words of its lines, the buffers are never
left, and parsing ends when the commands do. -/
theorem scripts_parse_to_words (script : CString) (mem : Nat → UInt8) (argv : Nat → Option Nat) :
    ArgLineRight script (ArgLine.parse mem argv script.bytes) ∧
      ∀ (σ : Type) (cmds : List (Command σ)) (s : σ),
        (∀ cmd ∈ cmds, ∀ s argv, cmd.run s argv ≠ none) → (cmdParse cmds s script).res ≠ none := by
  obtain ⟨hinside, hspec⟩ := ArgLine.parse_spec mem argv script.bytes
  refine ⟨⟨?_, ?_, hinside, ?_⟩, fun σ cmds s hcmds => parse_ends hcmds s script.bytes⟩
  · intro line rest hscript hrest hne hline hargc hlen
    have hroom : roomFor line ≤ SIZE_CMD_ARG_LINE :=
      (roomFor_le line).trans (Nat.add_le_add_right hlen 1)
    obtain ⟨args, hargs, hwords⟩ := parseArgs_words SIZE_CMD_ARG_LINE [] rfl hrest hline
      (by rw [List.length_nil, Nat.zero_add]; exact hargc) hroom
    have hparse : parseArgLine script.bytes = .ok (args, rest.tail) := by
      rw [parseArgLine, if_neg hne, hscript, hargs, List.nil_append]
    rw [hparse] at hspec
    obtain ⟨hres, hrest', hholds, hnull⟩ := hspec
    have hlength : (words line).length = args.length := by rw [← hwords, List.length_map]
    refine ⟨by rw [hlength, hres], hrest', by rw [hlength, hnull], fun i hi => ?_⟩
    obtain ⟨p, hp, hstring⟩ := hholds.stringAt (hi.trans_eq hlength)
    refine ⟨p, hp, ?_⟩
    rw [hstring]
    simp [← hwords]
  · intro line rest hscript hrest hline hbad
    have hbad' : BadLine 0 line := by rwa [BadLine, Nat.zero_add]
    have hne : script.bytes ≠ [] := by
      intro hnil
      obtain ⟨rfl, -⟩ := List.append_eq_nil_iff.mp (hscript.symm.trans hnil)
      exact not_badLine_nil (Nat.zero_lt_succ 10) hbad'
    obtain ⟨res, hres⟩ := parseArgs_badLine SIZE_CMD_ARG_LINE [] hscript hrest hline
      (Nat.zero_lt_succ 10) hbad'
    have hparse : parseArgLine script.bytes = .error res := by rw [parseArgLine, if_neg hne, hres]
    rw [hparse] at hspec
    obtain ⟨hneg, hend⟩ := parseArgs_error hres
    rw [hspec]
    refine ⟨hneg, hend, fun σ cmds s => ?_⟩
    rw [cmdParse, parse_error cmds hparse, if_neg hend]
  · intro hres
    cases hparse : parseArgLine script.bytes with
    | error res =>
        rw [hparse] at hspec
        exact absurd (parseArgLine_error hparse) (by rw [← hspec]; omega)
    | ok line =>
        obtain ⟨args, rest⟩ := line
        rw [hparse] at hspec
        rw [hspec.2.1]
        exact ⟨parseArgLine_isSuffix hparse, parseArgLine_shorter hparse⟩

end Plo.Cmds
