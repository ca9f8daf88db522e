import Plo.Lib.Getopt

/-!
What the options of a command line are by the definition of `getopt`, and what the
function finds in the string that declares them.
-/
namespace Plo.Lib

inductive ArgKind
  | flag
  | required
  | optional
  deriving DecidableEq

def ArgKind.colons : ArgKind → List UInt8
  | .flag => []
  | .required => [':'.toUInt8]
  | .optional => [':'.toUInt8, ':'.toUInt8]

structure OptDecl where
  letter : UInt8
  kind : ArgKind
  alnum : isalnum letter

def OptDecl.text (d : OptDecl) : List UInt8 := d.letter :: d.kind.colons

structure OptSpec where
  leading : Bool
  opts : List OptDecl

section Text

theorem isalnum_ne {c : UInt8} (h : isalnum c) : c ≠ 0 ∧ c ≠ ':'.toUInt8 ∧ c ≠ '?'.toUInt8 := by
  refine ⟨?_, ?_, ?_⟩ <;> rintro rfl <;> exact absurd h (by decide)

theorem OptDecl.text_noNul (d : OptDecl) : 0 ∉ d.text := by
  rw [text, List.mem_cons, not_or]
  refine ⟨(isalnum_ne d.alnum).1.symm, ?_⟩
  cases d.kind <;> decide

def OptSpec.bytes (spec : OptSpec) : List UInt8 :=
  (if spec.leading then [':'.toUInt8] else []) ++ spec.opts.flatMap OptDecl.text

theorem OptSpec.bytes_noNul (spec : OptSpec) : 0 ∉ spec.bytes := by
  rw [bytes, List.mem_append, not_or]
  constructor
  · cases spec.leading <;> decide
  · intro h
    obtain ⟨d, -, hd⟩ := List.mem_flatMap.mp h
    exact d.text_noNul hd

def OptSpec.text (spec : OptSpec) : CString := ⟨spec.bytes, spec.bytes_noNul⟩

def OptSpec.lookup (spec : OptSpec) (c : UInt8) : Option ArgKind :=
  (spec.opts.find? (·.letter = c)).map (·.kind)

theorem OptSpec.lookup_alnum {spec : OptSpec} {c : UInt8} {k : ArgKind}
    (h : spec.lookup c = some k) : isalnum c := by
  obtain ⟨d, hd, -⟩ := Option.map_eq_some_iff.mp h
  have hletter : d.letter = c := by simpa using List.find?_some hd
  exact hletter ▸ d.alnum

end Text

section Scan

/-- An option character: what stands behind it in its argument, and the argument after
that one. -/
structure OptChar where
  c : UInt8
  rest : List UInt8
  next : Option CString

def takesArgument : Option ArgKind → Bool
  | none | some .flag => false
  | some .required | some .optional => true

/-- The option's argument is the argument after its own. -/
def takesNext (kind : Option ArgKind) (o : OptChar) : Bool :=
  kind = some .required ∧ o.rest = [] ∧ o.next.isSome

variable (kind : UInt8 → Option ArgKind)

/-- The options of one argument, and whether the last takes the next argument. -/
def clusterChars (next : Option CString) : List UInt8 → List OptChar × Bool
  | [] => ([], false)
  | c :: rest =>
    let o : OptChar := ⟨c, rest, next⟩
    if takesArgument (kind c) then ([o], takesNext (kind c) o)
    else
      let (os, taken) := clusterChars next rest
      (o :: os, taken)

/-- The options of the arguments, and how many arguments they use; `taken` for a first
argument that belongs to the option before it. -/
def optChars (taken : Bool) : List CString → List OptChar × Nat
  | [] => ([], 0)
  | arg :: args =>
    if taken then
      let (os, n) := optChars false args
      (os, n + 1)
    else
      match arg.bytes with
      | [] => ([], 0)
      | dash :: cs =>
        if dash ≠ '-'.toUInt8 ∨ cs = [] then ([], 0)
        else if cs = ['-'.toUInt8] then ([], 1)
        else
          let (os, taken) := clusterChars kind args.head? cs
          let (os', n) := optChars taken args
          (os ++ os', n + 1)

/-- An argument that no option before it takes: an operand, the end of the options, or
options. -/
theorem optChars_cases (arg : CString) (args : List CString) :
    ((arg.bytes.headD 0 ≠ '-'.toUInt8 ∨ arg.bytes = ['-'.toUInt8]) ∧
        ∀ kind, optChars kind false (arg :: args) = ([], 0)) ∨
      (arg.bytes = ['-'.toUInt8, '-'.toUInt8] ∧
        ∀ kind, optChars kind false (arg :: args) = ([], 1)) ∨
      ∃ cs, arg.bytes = '-'.toUInt8 :: cs ∧ cs ≠ [] ∧ cs ≠ ['-'.toUInt8] ∧
        ∀ kind, optChars kind false (arg :: args) =
          ((clusterChars kind args.head? cs).1 ++
              (optChars kind (clusterChars kind args.head? cs).2 args).1,
            (optChars kind (clusterChars kind args.head? cs).2 args).2 + 1) := by
  simp only [optChars, if_neg Bool.false_ne_true]
  cases arg.bytes with
  | nil => exact .inl ⟨.inl (by decide), fun _ => rfl⟩
  | cons dash cs =>
    dsimp only
    by_cases hoperand : dash ≠ '-'.toUInt8 ∨ cs = []
    · refine .inl ⟨?_, fun _ => if_pos hoperand⟩
      by_cases hdash : dash = '-'.toUInt8
      · obtain rfl : cs = [] := hoperand.resolve_left (not_not_intro hdash)
        exact .inr (congrArg (· :: []) hdash)
      · exact .inl hdash
    · obtain ⟨hdash, hcs⟩ := not_or.mp hoperand
      obtain rfl := not_not.mp hdash
      by_cases hdashes : cs = ['-'.toUInt8]
      · refine .inr (.inl ⟨by rw [hdashes], fun _ => ?_⟩)
        rw [if_neg hoperand, if_pos hdashes]
      · refine .inr (.inr ⟨cs, rfl, hcs, hdashes, fun _ => ?_⟩)
        rw [if_neg hoperand, if_neg hdashes]

end Scan

/-- What is returned for an option character, and the option's argument. -/
def optResult (kind : Option ArgKind) (leading : Bool) (o : OptChar) :
    UInt8 × Option (List UInt8) :=
  match kind with
  | none => ('?'.toUInt8, none)
  | some .flag => (o.c, none)
  | some .optional => (o.c, if o.rest = [] then none else some o.rest)
  | some .required =>
    if o.rest ≠ [] then (o.c, some o.rest)
    else
      match o.next with
      | some arg => (o.c, some arg.bytes)
      | none => (if leading then ':'.toUInt8 else '?'.toUInt8, none)

section Posix
variable (spec : OptSpec) (argv : List CString)

/-- The option characters of a command line, which starts with the command's name. -/
def OptSpec.posixChars : List OptChar := (optChars spec.lookup false argv.tail).1

def OptSpec.posixOptind : Nat := 1 + (optChars spec.lookup false argv.tail).2

def OptSpec.posixResults : List (UInt8 × Option (List UInt8)) :=
  (spec.posixChars argv).map fun o => optResult (spec.lookup o.c) spec.leading o

/-- What a caller looks at: the option's argument where the option has one. -/
def OptSpec.observe (ret : UInt8 × Option (List UInt8)) : UInt8 × Option (List UInt8) :=
  (ret.1, if takesArgument (spec.lookup ret.1) then ret.2 else none)

end Posix

section Declares

/-- What `getopt` takes a declaration for. -/
def Declares (optspec : List UInt8) : ArgKind → Prop
  | .flag => ∃ c x rest, optspec = c :: x :: rest ∧ x ≠ ':'.toUInt8
  | .required => ∃ c x rest, optspec = c :: ':'.toUInt8 :: x :: rest ∧ x ≠ ':'.toUInt8
  | .optional => ∃ c rest, optspec = c :: ':'.toUInt8 :: ':'.toUInt8 :: rest

/-- The result of the search for an option character. -/
def FoundAs (found : Option (List UInt8)) : Option ArgKind → Prop
  | none => found = none
  | some k => ∃ optspec, found = some optspec ∧ Declares optspec k

/-- The first declaration with colons, of an option that takes an argument. -/
def OptSpec.firstColons (spec : OptSpec) : Option ArgKind :=
  (spec.opts.find? (·.kind ≠ .flag)).map (·.kind)

/-- What `getopt` takes `:` for: the first in the string, as if it declared an option. -/
def OptSpec.colonKind (spec : OptSpec) : Option ArgKind :=
  if spec.leading then some .flag
  else spec.firstColons.map fun k => if k = .optional then .required else .flag

def OptSpec.codeKind (spec : OptSpec) (c : UInt8) : Option ArgKind :=
  if c = ':'.toUInt8 then spec.colonKind else spec.lookup c

/-- The declarations and the NUL at the end. -/
def declsText (opts : List OptDecl) : List UInt8 := opts.flatMap OptDecl.text ++ [0]

theorem declsText_cons (d : OptDecl) (opts : List OptDecl) :
    declsText (d :: opts) = d.letter :: (d.kind.colons ++ declsText opts) := by
  simp only [declsText, List.flatMap_cons, OptDecl.text, List.cons_append, List.append_assoc]

theorem declsText_head (opts : List OptDecl) :
    ∃ x rest, declsText opts = x :: rest ∧ x ≠ ':'.toUInt8 := by
  cases opts with
  | nil => exact ⟨0, [], rfl, by decide⟩
  | cons d opts => exact ⟨_, _, declsText_cons d opts, (isalnum_ne d.alnum).2.1⟩

theorem declares_decl (c : UInt8) (k : ArgKind) (opts : List OptDecl) :
    Declares (c :: (k.colons ++ declsText opts)) k := by
  obtain ⟨x, rest, htext, hx⟩ := declsText_head opts
  rw [htext]
  cases k with
  | flag => exact ⟨c, x, rest, rfl, hx⟩
  | required => exact ⟨c, x, rest, rfl, hx⟩
  | optional => exact ⟨c, x :: rest, rfl⟩

variable {c : UInt8}

theorem strchr_cons_ne {s : UInt8} {rest : List UInt8} (hs : s ≠ c) (hnul : s ≠ 0) :
    strchr c (s :: rest) = strchr c rest := by
  rw [strchr, if_neg hs, if_neg hnul]

theorem strchr_colons (hc : c ≠ ':'.toUInt8) (k : ArgKind) (rest : List UInt8) :
    strchr c (k.colons ++ rest) = strchr c rest := by
  have hcolon (rest : List UInt8) : strchr c (':'.toUInt8 :: rest) = strchr c rest :=
    strchr_cons_ne hc.symm (by decide)
  cases k with
  | flag => rfl
  | required => exact hcolon rest
  | optional => exact (hcolon _).trans (hcolon rest)

theorem strchr_decls (hc : c ≠ ':'.toUInt8) (hnul : c ≠ 0) (opts : List OptDecl) :
    FoundAs (strchr c (declsText opts)) ((opts.find? (·.letter = c)).map (·.kind)) := by
  induction opts with
  | nil => exact (if_neg hnul.symm).trans (if_pos rfl)
  | cons d opts ih =>
    rw [declsText_cons]
    by_cases hletter : d.letter = c
    · rw [List.find?_cons_of_pos (by simpa using hletter), strchr, if_pos hletter]
      exact ⟨_, rfl, declares_decl d.letter d.kind opts⟩
    · rw [List.find?_cons_of_neg (by simpa using hletter),
        strchr_cons_ne hletter (isalnum_ne d.alnum).1, strchr_colons hc]
      exact ih

theorem strchr_colon (opts : List OptDecl) :
    FoundAs (strchr ':'.toUInt8 (declsText opts))
      (((opts.find? (·.kind ≠ .flag)).map (·.kind)).map
        fun k => if k = .optional then .required else .flag) := by
  induction opts with
  | nil => rfl
  | cons d opts ih =>
    rw [declsText_cons, strchr_cons_ne (isalnum_ne d.alnum).2.1 (isalnum_ne d.alnum).1]
    obtain ⟨x, rest, htext, hx⟩ := declsText_head opts
    cases hkind : d.kind with
    | flag =>
      rw [List.find?_cons_of_neg (by simp [hkind])]
      exact ih
    | required =>
      rw [List.find?_cons_of_pos (by simp [hkind]), htext, Option.map_some, hkind]
      exact ⟨_, rfl, ':'.toUInt8, x, rest, rfl, hx⟩
    | optional =>
      rw [List.find?_cons_of_pos (by simp [hkind]), htext, Option.map_some, hkind]
      exact ⟨_, rfl, ':'.toUInt8, x, rest, rfl, hx⟩

theorem OptSpec.chars_text (spec : OptSpec) :
    chars spec.text = (if spec.leading then [':'.toUInt8] else []) ++ declsText spec.opts :=
  List.append_assoc _ _ _

theorem OptSpec.strchr_text (spec : OptSpec) (hnul : c ≠ 0) :
    FoundAs (strchr c (chars spec.text)) (spec.codeKind c) := by
  rw [chars_text, codeKind]
  by_cases hc : c = ':'.toUInt8
  · subst hc
    rw [if_pos rfl, colonKind]
    cases hleading : spec.leading with
    | false => exact strchr_colon spec.opts
    | true =>
      obtain ⟨x, rest, htext, hx⟩ := declsText_head spec.opts
      exact ⟨_, rfl, ':'.toUInt8, x, rest, congrArg _ htext, hx⟩
  · rw [if_neg hc]
    cases hleading : spec.leading with
    | false => exact strchr_decls hc hnul spec.opts
    | true =>
      have hskip := strchr_colons hc .required (declsText spec.opts)
      exact hskip ▸ strchr_decls hc hnul spec.opts

theorem OptSpec.head_text (spec : OptSpec) :
    ∃ x, (chars spec.text)[0]? = some x ∧ (x = ':'.toUInt8 ↔ spec.leading) := by
  rw [chars_text]
  cases hleading : spec.leading with
  | false =>
    obtain ⟨x, rest, htext, hx⟩ := declsText_head spec.opts
    exact ⟨x, congrArg (·[0]?) htext, by simpa using hx⟩
  | true => exact ⟨':'.toUInt8, rfl, iff_of_true rfl rfl⟩

end Declares

end Plo.Lib
