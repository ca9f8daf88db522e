import Plo.Lib.GetoptSpec

/-!
The calls of `getopt` on a whole command line. The position between two calls is an
argument and the option characters left in it.
-/
namespace Plo.Lib

section Position
variable {argv : List CString} {s : GetoptState} {i : Nat} {c : UInt8} {cs rest : List UInt8}

/-- The next call starts with an argument. -/
def AtArgument (s : GetoptState) (i : Nat) : Prop := s.optind = i ∧ s.optwhere = 1

/-- The next call goes on in an argument, with the characters `cs` left in it. -/
structure InArgument (argv : List CString) (s : GetoptState) (i : Nat) (cs : List UInt8) :
    Prop where
  pos : 0 < i
  optind : s.optind = i
  arg : ∃ arg before, argv[i]? = some arg ∧ arg.bytes = '-'.toUInt8 :: (before ++ cs) ∧
    arg.bytes ≠ ['-'.toUInt8, '-'.toUInt8] ∧ s.optwhere = 1 + before.length

theorem argChar_of {arg : CString} (harg : argv[i]? = some arg) (j : Nat) :
    argChar argv i j = (chars arg)[j]? := by
  rw [argChar, harg, Option.bind_some]

theorem argChar_eq {arg : CString} {before after : List UInt8} (harg : argv[i]? = some arg)
    (hchars : chars arg = before ++ c :: after) : argChar argv i before.length = some c := by
  rw [argChar_of harg, hchars, List.getElem?_append_right (Nat.le_refl _), Nat.sub_self]
  rfl

/-- The first two checks of a call let an argument pass. -/
theorem argument_checks {arg : CString} (hpos : 0 < s.optind)
    (harg : argv[s.optind]? = some arg) :
    ¬ s.optind = 0 ∧ ¬ (argv.length = 0 ∨ s.optind ≥ argv.length) := by
  have hlt := (List.getElem?_eq_some_iff.mp harg).1
  exact ⟨Nat.ne_of_gt hpos, by omega⟩

theorem InArgument.char (h : InArgument argv s i cs) :
    argChar argv s.optind s.optwhere = some (cs.headD 0) := by
  obtain ⟨arg, before, harg, hbytes, -, hwhere⟩ := h.arg
  have hchars : chars arg =
      ('-'.toUInt8 :: before) ++ cs.headD 0 :: (if cs = [] then [] else cs.tail ++ [0]) := by
    rw [chars, hbytes]
    cases cs <;> simp
  rw [h.optind, hwhere, Nat.add_comm]
  exact argChar_eq harg hchars

theorem InArgument.noNul (h : InArgument argv s i cs) : 0 ∉ cs := by
  obtain ⟨arg, before, -, hbytes, -, -⟩ := h.arg
  intro hzero
  refine arg.noNul (hbytes ▸ List.mem_cons_of_mem _ ?_)
  exact List.mem_append_right before hzero

theorem InArgument.headD_eq_zero (h : InArgument argv s i cs) : cs.headD 0 = 0 ↔ cs = [] := by
  cases cs with
  | nil => exact iff_of_true rfl rfl
  | cons c rest =>
    refine iff_of_false ?_ (List.cons_ne_nil c rest)
    exact fun hzero => h.noNul (hzero ▸ List.mem_cons_self)

theorem InArgument.drop (h : InArgument argv s i cs) :
    ∃ arg, argv[s.optind]? = some arg ∧ arg.bytes.drop s.optwhere = cs := by
  obtain ⟨arg, before, harg, hbytes, -, hwhere⟩ := h.arg
  refine ⟨arg, h.optind ▸ harg, ?_⟩
  rw [hbytes, hwhere, Nat.add_comm, List.drop_succ_cons, List.drop_left]

theorem InArgument.lt (h : InArgument argv s i cs) : i < argv.length := by
  obtain ⟨arg, -, harg, -⟩ := h.arg
  exact (List.getElem?_eq_some_iff.mp harg).1

/-- The position behind the option character. -/
theorem InArgument.next {s' : GetoptState} (h : InArgument argv s i (c :: rest))
    (hind : s'.optind = s.optind) (hwhere : s'.optwhere = s.optwhere + 1) :
    InArgument argv s' i rest := by
  obtain ⟨arg, before, harg, hbytes, hdashes, hbefore⟩ := h.arg
  refine ⟨h.pos, hind.trans h.optind, arg, before ++ [c], harg, ?_, hdashes, ?_⟩
  · rw [hbytes, List.append_assoc]
    rfl
  · rw [hwhere, hbefore, List.length_append]
    rfl

/-- The checks at the start of a call find nothing that ends the options. -/
theorem getopt_eq_option (optstring : CString) (h : InArgument argv s i (c :: rest)) :
    getopt argv optstring s =
      getoptOption argv optstring c { s with optwhere := s.optwhere + 1 } := by
  obtain rfl := h.optind
  have hchar : argChar argv s.optind s.optwhere = some c := h.char
  obtain ⟨arg, before, harg, hbytes, hdashes, -⟩ := h.arg
  obtain ⟨c₁, more, hmore⟩ : ∃ c₁ more, before ++ c :: rest = c₁ :: more := by
    cases before with
    | nil => exact ⟨c, rest, rfl⟩
    | cons c₁ before => exact ⟨c₁, before ++ c :: rest, rfl⟩
  rw [hmore] at hbytes
  have hnul : 0 ∉ '-'.toUInt8 :: c₁ :: more := hbytes ▸ arg.noNul
  have hchars : chars arg = '-'.toUInt8 :: c₁ :: (more ++ [0]) := congrArg (· ++ [0]) hbytes
  have hread (j : Nat) : argChar argv s.optind j = ('-'.toUInt8 :: c₁ :: (more ++ [0]))[j]? :=
    hchars ▸ argChar_of harg j
  have hzero : argChar argv s.optind 0 = some '-'.toUInt8 := hread 0
  have hone : argChar argv s.optind 1 = some c₁ := hread 1
  have hc₁ : ¬ c₁ = 0 := fun hc => hnul (hc ▸ List.mem_cons_of_mem _ List.mem_cons_self)
  have htwo (hdash : c₁ = '-'.toUInt8) : ∃ c₂, argChar argv s.optind 2 = some c₂ ∧ ¬ c₂ = 0 := by
    cases more with
    | nil => exact absurd (hdash ▸ hbytes) hdashes
    | cons c₂ more =>
      refine ⟨c₂, hread 2, ?_⟩
      rintro rfl
      exact hnul (by simp)
  obtain ⟨hind, hstart⟩ := argument_checks h.pos harg
  have hnodash : ¬ '-'.toUInt8 ≠ '-'.toUInt8 := not_not_intro rfl
  rw [getopt]
  simp only [if_neg hind, if_neg hstart, hzero, hone, if_neg hc₁, if_neg hnodash, hchar,
    Option.bind_eq_bind, Option.bind_some]
  by_cases hdash : c₁ = '-'.toUInt8
  · obtain ⟨c₂, hc₂, hne⟩ := htwo hdash
    simp only [if_pos hdash, hc₂, Option.bind_some, if_neg hne]
  · simp only [if_neg hdash]

end Position

section Option
variable {argv : List CString} {s : GetoptState} {i : Nat} {k : Option ArgKind} {o : OptChar}
variable {optstring : CString} {leading : Bool}

/-- The position behind an option. -/
def Resumes (argv : List CString) (i : Nat) (k : Option ArgKind) (o : OptChar)
    (s : GetoptState) : Prop :=
  if takesArgument k then AtArgument s (i + 1 + (takesNext k o).toNat)
  else if o.rest = [] then AtArgument s (i + 1)
  else InArgument argv s i o.rest

/-- A call that returns the result of an option character. -/
def Returned (argv : List CString) (i : Nat) (k : Option ArgKind) (leading : Bool) (o : OptChar)
    (r : Option (GetoptCall × GetoptState)) : Prop :=
  ∃ ret printed s', r = some (⟨some ret, printed⟩, s') ∧ ret = (optResult k leading o).1 ∧
    (takesArgument k → isalnum ret → s'.optarg = (optResult k leading o).2) ∧
    Resumes argv i k o s'

theorem resumes_nextArg {taken : Bool} (hkind : takesArgument k) (htaken : takesNext k o = taken)
    (h : s.optind = i + taken.toNat) : Resumes argv i k o s.nextArg := by
  rw [Resumes, if_pos hkind, htaken, Nat.add_right_comm]
  exact ⟨congrArg (· + 1) h, rfl⟩

/-- An option whose argument is required: in the same argument, in the next one, or
missing. -/
theorem getoptArgument_required {optspec : List UInt8} {x : UInt8}
    (h : InArgument argv s i o.rest) (hnext : o.next = argv[i + 1]?) (hx : optspec[2]? = some x)
    (hcolon : x ≠ ':'.toUInt8) :
    Returned argv i (some .required) leading o (getoptArgument argv leading o.c optspec s) := by
  obtain rfl := h.optind
  have hlt := h.lt
  obtain ⟨arg, harg, hdrop⟩ := h.drop
  rw [getoptArgument, h.char]
  simp only [Option.bind_eq_bind, Option.bind_some, harg, hdrop, hx, if_neg hcolon]
  by_cases hrest : o.rest = []
  · rw [if_neg (not_not_intro (h.headD_eq_zero.mpr hrest))]
    by_cases hlast : s.optind + 1 < argv.length
    · have hsome : o.next = some argv[s.optind + 1] := by
        rw [hnext, List.getElem?_eq_getElem hlast]
      have hresult : optResult (some .required) leading o =
          (o.c, some argv[s.optind + 1].bytes) := by
        simp only [optResult, hrest, hsome, ne_eq, not_true_eq_false, if_false]
      have htaken : takesNext (some .required) o = true := by
        simp only [takesNext, hrest, hsome, Option.isSome_some, and_self, decide_true]
      rw [if_pos hlast, ← hnext, hsome, Option.bind_some]
      refine ⟨o.c, [], _, rfl, by rw [hresult], fun _ _ => by rw [hresult]; rfl, ?_⟩
      exact resumes_nextArg rfl htaken rfl
    · have hnone : o.next = none := by
        rw [hnext, List.getElem?_eq_none (Nat.not_lt.mp hlast)]
      have hresult : optResult (some .required) leading o =
          (if leading then ':'.toUInt8 else '?'.toUInt8, none) := by
        simp only [optResult, hrest, hnone, ne_eq, not_true_eq_false, if_false]
      have htaken : takesNext (some .required) o = false := by
        simp only [takesNext, hnone, Option.isSome_none, Bool.false_eq_true, and_false,
          decide_false]
      rw [if_neg hlast, Returned, hresult]
      cases leading with
      | true =>
        exact ⟨_, [], _, rfl, rfl, fun _ h => absurd h (by decide), resumes_nextArg rfl htaken rfl⟩
      | false =>
        rw [if_neg Bool.false_ne_true, List.getElem?_eq_getElem (Nat.zero_lt_of_lt hlt)]
        split
        · exact ⟨_, _, _, rfl, rfl, fun _ h => absurd h (by decide),
            resumes_nextArg rfl htaken rfl⟩
        · exact ⟨_, [], _, rfl, rfl, fun _ h => absurd h (by decide),
            resumes_nextArg rfl htaken rfl⟩
  · have hresult : optResult (some .required) leading o = (o.c, some o.rest) := if_pos hrest
    rw [if_pos (mt h.headD_eq_zero.mp hrest)]
    refine ⟨o.c, [], _, rfl, by rw [hresult], fun _ _ => by rw [hresult]; rfl, ?_⟩
    exact resumes_nextArg rfl (decide_eq_false fun h => hrest h.2.1) rfl

theorem getoptArgument_optional {optspec : List UInt8} (h : InArgument argv s i o.rest)
    (hcolon : optspec[2]? = some ':'.toUInt8) :
    Returned argv i (some .optional) leading o (getoptArgument argv leading o.c optspec s) := by
  obtain ⟨arg, harg, hdrop⟩ := h.drop
  have htaken : takesNext (some .optional) o = false := decide_eq_false fun h => nomatch h.1
  rw [getoptArgument, h.char]
  simp only [Option.bind_eq_bind, Option.bind_some, harg, hdrop, hcolon, if_true]
  by_cases hrest : o.rest = []
  · have hresult : optResult (some .optional) leading o = (o.c, none) := by
      rw [optResult, if_pos hrest]
    rw [if_neg (not_not_intro (h.headD_eq_zero.mpr hrest))]
    refine ⟨o.c, [], _, rfl, by rw [hresult], fun _ _ => by rw [hresult]; rfl, ?_⟩
    exact resumes_nextArg rfl htaken h.optind
  · have hresult : optResult (some .optional) leading o = (o.c, some o.rest) := by
      rw [optResult, if_neg hrest]
    rw [if_pos (mt h.headD_eq_zero.mp hrest)]
    refine ⟨o.c, [], _, rfl, by rw [hresult], fun _ _ => by rw [hresult]; rfl, ?_⟩
    exact resumes_nextArg rfl htaken h.optind

/-- Behind an option without an argument, where the option characters may go on. -/
theorem resumes_more (h : InArgument argv s i o.rest) (hkind : ¬ takesArgument k) :
    Resumes argv i k o (if o.rest = [] then s.nextArg else s) := by
  rw [Resumes, if_neg hkind]
  by_cases hrest : o.rest = []
  · rw [if_pos hrest, if_pos hrest]
    exact ⟨congrArg (· + 1) h.optind, rfl⟩
  · rw [if_neg hrest, if_neg hrest]
    exact h

/-- The result of an option character, for what the search finds for it. -/
theorem getoptOption_returned {x : UInt8} (h : InArgument argv s i o.rest)
    (hnext : o.next = argv[i + 1]?) (hx : (chars optstring)[0]? = some x)
    (hleading : x = ':'.toUInt8 ↔ leading) (hfound : FoundAs (strchr o.c (chars optstring)) k) :
    Returned argv i k leading o (getoptOption argv optstring o.c s) := by
  rw [getoptOption]
  simp only [hx, hleading, Bool.decide_eq_true, Option.bind_eq_bind, Option.bind_some]
  have hchar := h.char
  match k, hfound with
  | none, hfound =>
    have hstate : InArgument argv { s with optopt := o.c } i o.rest := ⟨h.pos, h.optind, h.arg⟩
    rw [hfound]
    simp only [hchar, Option.bind_some, h.headD_eq_zero]
    split
    · rw [List.getElem?_eq_getElem (Nat.zero_lt_of_lt h.lt)]
      exact ⟨_, _, _, rfl, rfl, fun h => absurd h Bool.false_ne_true,
        resumes_more hstate Bool.false_ne_true⟩
    · exact ⟨_, _, _, rfl, rfl, fun h => absurd h Bool.false_ne_true,
        resumes_more hstate Bool.false_ne_true⟩
  | some .flag, ⟨optspec, hfound, c, x, rest, htext, hcolon⟩ =>
    subst htext
    rw [hfound]
    simp only [List.getElem?_cons_succ, List.getElem?_cons_zero, Option.bind_some, if_neg hcolon,
      hchar, ne_eq, h.headD_eq_zero, ite_not]
    exact ⟨_, _, _, rfl, rfl, fun h => absurd h Bool.false_ne_true,
      resumes_more h Bool.false_ne_true⟩
  | some .required, ⟨optspec, hfound, c, x, rest, htext, hcolon⟩ =>
    rw [hfound]
    subst htext
    exact getoptArgument_required h hnext rfl hcolon
  | some .optional, ⟨optspec, hfound, c, rest, htext⟩ =>
    rw [hfound]
    subst htext
    exact getoptArgument_optional h rfl

end Option

section Observe
variable {spec : OptSpec} {leading : Bool} {o : OptChar} {k : Option ArgKind}

/-- The option that takes an argument, the one that takes none, and the two results
that are no option. -/
theorem optResult_cases (k : Option ArgKind) (leading : Bool) (o : OptChar) :
    ((optResult k leading o).1 = o.c ∧ takesArgument k) ∨
      ((optResult k leading o).2 = none ∧
        ((optResult k leading o).1 = o.c ∧ ¬ takesArgument k ∨
          ¬ isalnum (optResult k leading o).1)) := by
  match k with
  | none =>
    refine .inr ⟨rfl, .inr ?_⟩
    rw [optResult]
    decide
  | some .flag => exact .inr ⟨rfl, .inl ⟨rfl, Bool.false_ne_true⟩⟩
  | some .optional => exact .inl ⟨rfl, rfl⟩
  | some .required =>
    by_cases hrest : o.rest = []
    · cases hnext : o.next with
      | none =>
        refine .inr ⟨?_, .inr ?_⟩
        · simp only [optResult, hrest, hnext, ne_eq, not_true_eq_false, if_false]
        · simp only [optResult, hrest, hnext, ne_eq, not_true_eq_false, if_false]
          cases leading <;> decide
      | some arg =>
        refine .inl ⟨?_, rfl⟩
        simp only [optResult, hrest, hnext, ne_eq, not_true_eq_false, if_false]
    · exact .inl ⟨congrArg Prod.fst (if_pos hrest), rfl⟩

/-- What a caller sees of the call for an option character. -/
def OptSpec.codeResult (spec : OptSpec) (o : OptChar) : UInt8 × Option (List UInt8) :=
  ((optResult (spec.codeKind o.c) spec.leading o).1,
    if o.c = ':'.toUInt8 then none else (optResult (spec.lookup o.c) spec.leading o).2)

theorem OptSpec.takesArgument_alnum {c : UInt8} (h : takesArgument (spec.lookup c)) :
    isalnum c := by
  cases hkind : spec.lookup c with
  | none =>
    rw [hkind] at h
    exact absurd h Bool.false_ne_true
  | some k => exact spec.lookup_alnum hkind

theorem OptSpec.observe_eq {ret : UInt8} {optarg : Option (List UInt8)}
    (hret : ret = (optResult (spec.codeKind o.c) spec.leading o).1)
    (harg : takesArgument (spec.codeKind o.c) → isalnum ret →
      optarg = (optResult (spec.codeKind o.c) spec.leading o).2) :
    spec.observe (ret, optarg) = spec.codeResult o := by
  have hcolon : ¬ takesArgument (spec.lookup ':'.toUInt8) := fun h =>
    absurd (OptSpec.takesArgument_alnum h) (by decide)
  have hcases := optResult_cases (spec.codeKind o.c) spec.leading o
  rw [observe, codeResult, ← hret, Prod.mk.injEq]
  refine ⟨rfl, ?_⟩
  rw [← hret] at hcases
  by_cases hc : o.c = ':'.toUInt8
  · rw [if_pos hc]
    obtain ⟨hopt, -⟩ | ⟨-, ⟨hopt, -⟩ | halnum⟩ := hcases
    · rw [hopt, hc, if_neg hcolon]
    · rw [hopt, hc, if_neg hcolon]
    · exact if_neg fun h => halnum (OptSpec.takesArgument_alnum h)
  · rw [codeKind, if_neg hc] at hcases harg
    rw [if_neg hc]
    obtain ⟨hopt, htakes⟩ | ⟨hnone, ⟨hopt, htakes⟩ | halnum⟩ := hcases
    · have hlookup : takesArgument (spec.lookup ret) := hopt ▸ htakes
      rw [if_pos hlookup]
      exact harg htakes (OptSpec.takesArgument_alnum hlookup)
    · rw [hopt, if_neg htakes, hnone]
    · rw [hnone]
      exact if_neg fun h => halnum (OptSpec.takesArgument_alnum h)

end Observe

section Run
variable {argv : List CString} {spec : OptSpec} {s : GetoptState} {i : Nat}

theorem getopt_optChar {o : OptChar} (h : InArgument argv s i (o.c :: o.rest))
    (hnext : o.next = argv[i + 1]?) :
    ∃ ret printed s', getopt argv spec.text s = some (⟨some ret, printed⟩, s') ∧
      spec.observe (ret, s'.optarg) = spec.codeResult o ∧
        Resumes argv i (spec.codeKind o.c) o s' := by
  obtain ⟨x, hx, hleading⟩ := spec.head_text
  have hnul : o.c ≠ 0 := fun hzero => h.noNul (hzero ▸ List.mem_cons_self)
  have hrest : InArgument argv { s with optwhere := s.optwhere + 1 } i o.rest := h.next rfl rfl
  obtain ⟨ret, printed, s', hcall, hret, harg, hresumes⟩ :=
    getoptOption_returned hrest hnext hx hleading (spec.strchr_text hnul)
  exact ⟨ret, printed, s', (getopt_eq_option spec.text h).trans hcall,
    OptSpec.observe_eq hret harg, hresumes⟩

/-- The calls for the options of one argument. -/
theorem calls_cluster {cs : List UInt8} (h : InArgument argv s i cs) (hcs : cs ≠ []) :
    ∃ rets s', AtArgument s' (i + 1 + (clusterChars spec.codeKind argv[i + 1]? cs).2.toNat) ∧
      rets.map spec.observe =
        (clusterChars spec.codeKind argv[i + 1]? cs).1.map spec.codeResult ∧
      ∀ rets' s'', Calls argv spec.text s' rets' s'' →
        Calls argv spec.text s (rets ++ rets') s'' := by
  induction cs generalizing s with
  | nil => exact absurd rfl hcs
  | cons c rest ih =>
    let o : OptChar := ⟨c, rest, argv[i + 1]?⟩
    obtain ⟨ret, printed, s₁, hcall, hobserve, hresumes⟩ :=
      @getopt_optChar argv spec s i o h rfl
    rw [Resumes] at hresumes
    rw [clusterChars]
    by_cases htakes : takesArgument (spec.codeKind c)
    · rw [if_pos htakes] at hresumes ⊢
      exact ⟨[_], s₁, hresumes, congrArg (· :: []) hobserve, fun _ _ hcalls => .more hcall hcalls⟩
    · rw [if_neg htakes] at hresumes ⊢
      by_cases hrest : rest = []
      · subst hrest
        exact ⟨[_], s₁, hresumes, congrArg (· :: []) hobserve, fun _ _ hcalls => .more hcall hcalls⟩
      · rw [if_neg hrest] at hresumes
        obtain ⟨rets, s', hat, hmap, hcalls⟩ := ih hresumes hrest
        refine ⟨(ret, s₁.optarg) :: rets, s', hat, ?_, fun rets' s'' h => ?_⟩
        · rw [List.map_cons, hobserve, hmap]
          rfl
        · exact .more hcall (hcalls rets' s'' h)

/-- The argument vector has come to its end. -/
theorem getopt_end (h : s.optind = i) (hpos : 0 < i) (hi : argv[i]? = none) :
    getopt argv spec.text s = some (⟨none, []⟩, s) := by
  have hind : ¬ s.optind = 0 := by omega
  have hend : argv.length = 0 ∨ s.optind ≥ argv.length := by
    have hlen := List.getElem?_eq_none_iff.mp hi
    exact .inr (h ▸ hlen)
  rw [getopt]
  simp only [if_neg hind, if_pos hend]
  rfl

/-- The argument is no option. -/
theorem getopt_operand {arg : CString} (h : s.optind = i) (hpos : 0 < i)
    (harg : argv[i]? = some arg)
    (hstop : arg.bytes.headD 0 ≠ '-'.toUInt8 ∨ arg.bytes = ['-'.toUInt8]) :
    getopt argv spec.text s = some (⟨none, []⟩, s) := by
  subst h
  obtain ⟨hind, hstart⟩ := argument_checks hpos harg
  have hzero : argChar argv s.optind 0 = some (arg.bytes.headD 0) := by
    rw [argChar_of harg, chars]
    cases arg.bytes <;> rfl
  rw [getopt]
  simp only [if_neg hind, if_neg hstart, hzero, Option.bind_eq_bind, Option.bind_some]
  obtain hdash | hbytes := hstop
  · exact if_pos hdash
  · have hone : argChar argv s.optind 1 = some 0 := by
      rw [argChar_of harg, chars, hbytes]
      rfl
    simp only [hone, Option.bind_some, if_true, ite_self]
    rfl

/-- The argument `--` is skipped. -/
theorem getopt_dashes {arg : CString} (h : s.optind = i) (hpos : 0 < i)
    (harg : argv[i]? = some arg) (hbytes : arg.bytes = ['-'.toUInt8, '-'.toUInt8]) :
    getopt argv spec.text s = some (⟨none, []⟩, { s with optind := i + 1 }) := by
  subst h
  obtain ⟨hind, hstart⟩ := argument_checks hpos harg
  have hread (j : Nat) : argChar argv s.optind j = ['-'.toUInt8, '-'.toUInt8, 0][j]? := by
    rw [argChar_of harg, chars, hbytes]
    rfl
  rw [getopt]
  simp only [if_neg hind, if_neg hstart, hread]
  rfl

theorem clusterChars_last (kind : UInt8 → Option ArgKind) (cs : List UInt8) :
    (clusterChars kind none cs).2 = false := by
  induction cs with
  | nil => rfl
  | cons c rest ih =>
    rw [clusterChars]
    split
    · exact decide_eq_false fun h => Bool.false_ne_true h.2.2
    · exact ih

theorem optChars_le (kind : UInt8 → Option ArgKind) (taken : Bool) (args : List CString) :
    (optChars kind taken args).2 ≤ args.length := by
  induction args generalizing taken with
  | nil => exact Nat.le_refl 0
  | cons arg args ih =>
    cases taken with
    | true => exact Nat.succ_le_succ (ih false)
    | false =>
      obtain ⟨-, hnone⟩ | ⟨-, hend⟩ | ⟨cs, -, -, -, hopts⟩ := optChars_cases arg args
      · rw [hnone kind]
        exact Nat.zero_le _
      · rw [hend kind]
        exact Nat.succ_le_succ (Nat.zero_le _)
      · rw [hopts kind]
        exact Nat.succ_le_succ (ih _)

/-- The calls from the start of an argument up to the end. The induction is on the
arguments left. -/
theorem calls_args {args : List CString} {taken : Bool} (hargs : argv.drop i = args)
    (hpos : 0 < i) (hat : AtArgument s (i + taken.toNat)) (htaken : taken → args ≠ []) :
    ∃ rets s', Calls argv spec.text s rets s' ∧
      rets.map spec.observe = (optChars spec.codeKind taken args).1.map spec.codeResult ∧
        s'.optind = i + (optChars spec.codeKind taken args).2 := by
  induction args generalizing i taken s with
  | nil =>
    obtain rfl : taken = false := Bool.eq_false_iff.mpr fun h => htaken h rfl
    have hend : argv[i]? = none := by rw [← List.head?_drop, hargs]; rfl
    exact ⟨[], s, .last (getopt_end hat.1 hpos hend), rfl, hat.1⟩
  | cons arg args ih =>
    have harg : argv[i]? = some arg := by rw [← List.head?_drop, hargs]; rfl
    have hdrop : argv.drop (i + 1) = args := by rw [← List.tail_drop, hargs]; rfl
    have hnext : argv[i + 1]? = args.head? := by rw [← List.head?_drop, hdrop]
    cases taken with
    | true =>
      obtain ⟨rets, s', hcalls, hmap, hind⟩ :=
        ih hdrop (Nat.succ_pos i) hat (fun h => absurd h Bool.false_ne_true)
      exact ⟨rets, s', hcalls, hmap, hind.trans (Nat.add_right_comm _ _ _)⟩
    | false =>
      obtain ⟨hoperand, hnone⟩ | ⟨hbytes, hend⟩ | ⟨cs, hbytes, hcs, hdashes, hopts⟩ :=
        optChars_cases arg args
      · rw [hnone]
        exact ⟨[], s, .last (getopt_operand hat.1 hpos harg hoperand), rfl, hat.1⟩
      · rw [hend]
        exact ⟨[], _, .last (getopt_dashes hat.1 hpos harg hbytes), rfl, rfl⟩
      · have hin : InArgument argv s i cs :=
          ⟨hpos, hat.1, arg, [], harg, hbytes,
            fun h => hdashes (List.cons.inj (hbytes.symm.trans h)).2, hat.2⟩
        obtain ⟨rets, s₁, hat₁, hmap, hcluster⟩ := @calls_cluster argv spec s i cs hin hcs
        rw [hnext] at hat₁ hmap
        have hmore : (clusterChars spec.codeKind args.head? cs).2 → args ≠ [] := by
          rintro h rfl
          exact Bool.false_ne_true ((clusterChars_last _ cs).symm.trans h)
        obtain ⟨rets', s', hcalls, hmap', hind⟩ := ih hdrop (Nat.succ_pos i) hat₁ hmore
        rw [hopts]
        refine ⟨rets ++ rets', s', hcluster rets' s' hcalls, ?_,
          hind.trans (Nat.add_right_comm _ _ _)⟩
        rw [List.map_append, List.map_append, hmap, hmap']

end Run
end Plo.Lib
