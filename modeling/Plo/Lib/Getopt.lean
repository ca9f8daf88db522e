import Plo.Lib.Strtoul

/-!
Options of a command. A pointer into a string is the rest of the string, and a read
behind the end of a string or of the argument vector has no value.
-/
namespace Plo.Lib

/-- The characters of a string, its NUL among them. -/
def chars (s : CString) : List UInt8 := s.bytes ++ [0]

def strchr (c : UInt8) : List UInt8 → Option (List UInt8)
  | [] => none
  | s :: rest => if s = c then some (s :: rest) else if s = 0 then none else strchr c rest

structure GetoptState where
  optarg : Option (List UInt8)
  optind : Nat
  opterr : Bool
  optopt : UInt8
  optwhere : Nat

def getoptReset : GetoptState := ⟨none, 1, true, 0, 1⟩

/-- What a call returns, no character for `-1`, and the text it prints. -/
structure GetoptCall where
  ret : Option UInt8
  printed : List UInt8

def illegalOption (argv0 : CString) (opt : UInt8) : List UInt8 :=
  argv0.bytes ++ ": illegal option -- ".toUTF8.toList ++ [opt, '\n'.toUInt8]

def requiresArgument (argv0 : CString) (opt : UInt8) : List UInt8 :=
  argv0.bytes ++ ": option requires an argument -- ".toUTF8.toList ++ [opt, '\n'.toUInt8]

section
variable (argv : List CString)

/-- `argv[i][j]` -/
def argChar (i j : Nat) : Option UInt8 := argv[i]?.bind fun arg => (chars arg)[j]?

def GetoptState.nextArg (s : GetoptState) : GetoptState :=
  { s with optind := s.optind + 1, optwhere := 1 }

/-- The option takes an argument. -/
def getoptArgument (leading_colon : Bool) (opt : UInt8) (optspec : List UInt8) (s : GetoptState) :
    Option (GetoptCall × GetoptState) := do
  if (← argChar argv s.optind s.optwhere) ≠ 0 then
    let arg ← argv[s.optind]?
    return (⟨some opt, []⟩, { s with optarg := some (arg.bytes.drop s.optwhere) }.nextArg)
  if (← optspec[2]?) = ':'.toUInt8 then
    return (⟨some opt, []⟩, { s with optarg := none }.nextArg)
  if s.optind + 1 < argv.length then
    let arg ← argv[s.optind + 1]?
    return (⟨some opt, []⟩, { s with optarg := some arg.bytes, optind := s.optind + 1 }.nextArg)
  let s := { s with optopt := opt }.nextArg
  if leading_colon then return (⟨some ':'.toUInt8, []⟩, s)
  if s.opterr then return (⟨some '?'.toUInt8, requiresArgument (← argv[0]?) opt⟩, s)
  return (⟨some '?'.toUInt8, []⟩, s)

/-- The call from the option character on. -/
def getoptOption (optstring : CString) (opt : UInt8) (s : GetoptState) :
    Option (GetoptCall × GetoptState) := do
  let leading_colon := decide ((← (chars optstring)[0]?) = ':'.toUInt8)
  match strchr opt (chars optstring) with
  | none =>
    let printed ←
      if s.opterr ∧ ¬ leading_colon then argv[0]?.map (illegalOption · opt) else some []
    let s := { s with optopt := opt }
    let more ← argChar argv s.optind s.optwhere
    return (⟨some '?'.toUInt8, printed⟩, if more = 0 then s.nextArg else s)
  | some optspec =>
    if (← optspec[1]?) = ':'.toUInt8 then getoptArgument argv leading_colon opt optspec s
    else
      let more ← argChar argv s.optind s.optwhere
      return (⟨some opt, []⟩, if more ≠ 0 then s else s.nextArg)

def getopt (optstring : CString) (s : GetoptState) : Option (GetoptCall × GetoptState) := do
  let s := if s.optind = 0 then getoptReset else s
  if argv.length = 0 ∨ s.optind ≥ argv.length then return (⟨none, []⟩, s)
  if (← argChar argv s.optind 0) ≠ '-'.toUInt8 then return (⟨none, []⟩, s)
  if (← argChar argv s.optind 1) = 0 then return (⟨none, []⟩, s)
  if (← argChar argv s.optind 1) = '-'.toUInt8 then
    if (← argChar argv s.optind 2) = 0 then
      return (⟨none, []⟩, { s with optind := s.optind + 1 })
  let opt ← argChar argv s.optind s.optwhere
  getoptOption argv optstring opt { s with optwhere := s.optwhere + 1 }

end

/-- Calls up to the one that returns `-1`: what the others return, each with the option's
argument after it. -/
inductive Calls (argv : List CString) (optstring : CString) :
    GetoptState → List (UInt8 × Option (List UInt8)) → GetoptState → Prop
  | last {s s' : GetoptState} {printed : List UInt8}
      (h : getopt argv optstring s = some (⟨none, printed⟩, s')) : Calls argv optstring s [] s'
  | more {s s₁ s' : GetoptState} {c : UInt8} {printed : List UInt8}
      {rets : List (UInt8 × Option (List UInt8))}
      (h : getopt argv optstring s = some (⟨some c, printed⟩, s₁))
      (rest : Calls argv optstring s₁ rets s') :
      Calls argv optstring s ((c, s₁.optarg) :: rets) s'

end Plo.Lib
