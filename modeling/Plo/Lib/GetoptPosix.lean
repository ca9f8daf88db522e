import Plo.Lib.GetoptRun

/-!
Where the options `getopt` finds are those of its definition. The search in the option
string also finds the colons of other declarations, so a colon on the command line can
pass for an option.
-/
namespace Plo.Lib

section Colons
variable {spec : OptSpec} {o : OptChar}

/-- A colon on the command line that gives the result of an unknown option: the option
string has none, or the call looks for an argument of the colon and misses it. -/
def OptSpec.HarmlessColon (spec : OptSpec) (o : OptChar) : Prop :=
  spec.leading = false ∧ (spec.firstColons = none ∨
    spec.firstColons = some .optional ∧ o.rest = [] ∧ o.next = none)

def OptSpec.ColonsHarmless (spec : OptSpec) (os : List OptChar) : Prop :=
  ∀ o ∈ os, o.c = ':'.toUInt8 → spec.HarmlessColon o

theorem OptSpec.lookup_colon (spec : OptSpec) : spec.lookup ':'.toUInt8 = none := by
  cases hkind : spec.lookup ':'.toUInt8 with
  | none => rfl
  | some k => exact absurd (spec.lookup_alnum hkind) (by decide)

theorem OptSpec.codeKind_ne {c : UInt8} (hc : c ≠ ':'.toUInt8) : spec.codeKind c = spec.lookup c :=
  if_neg hc

theorem OptSpec.codeKind_colon (spec : OptSpec) : spec.codeKind ':'.toUInt8 = spec.colonKind :=
  if_pos rfl

theorem OptSpec.HarmlessColon.kind (h : spec.HarmlessColon o) :
    spec.colonKind = none ∨ spec.colonKind = some .required ∧ o.rest = [] ∧ o.next = none := by
  obtain ⟨hleading, hcolons⟩ := h
  rw [colonKind, hleading, if_neg Bool.false_ne_true]
  obtain hnone | ⟨hoptional, hlast⟩ := hcolons
  · exact .inl (by rw [hnone]; rfl)
  · exact .inr ⟨by rw [hoptional]; rfl, hlast⟩

/-- A colon that is not harmless is returned as an option. -/
theorem OptSpec.colon_returned (h : ¬ spec.HarmlessColon o) :
    (optResult spec.colonKind spec.leading o).1 = o.c := by
  rw [colonKind]
  split
  · rfl
  · next hleading =>
    have hleading : spec.leading = false := Bool.eq_false_iff.mpr hleading
    cases hcolons : spec.firstColons with
    | none => exact absurd ⟨hleading, .inl hcolons⟩ h
    | some k =>
      by_cases hk : k = .optional
      · subst hk
        have hlast : ¬ (o.rest = [] ∧ o.next = none) := fun hlast =>
          h ⟨hleading, .inr ⟨hcolons, hlast⟩⟩
        rw [Option.map_some, if_pos rfl, optResult]
        by_cases hrest : o.rest = []
        · cases hnext : o.next with
          | none => exact absurd ⟨hrest, hnext⟩ hlast
          | some arg => rw [if_neg (not_not_intro hrest)]
        · rw [if_pos hrest]
      · rw [Option.map_some, if_neg hk]
        rfl

theorem OptSpec.codeResult_harmless (h : o.c = ':'.toUInt8 → spec.HarmlessColon o) :
    spec.codeResult o = optResult (spec.lookup o.c) spec.leading o := by
  rw [codeResult]
  by_cases hc : o.c = ':'.toUInt8
  · have hharmless := h hc
    rw [if_pos hc, hc, codeKind_colon, lookup_colon]
    obtain hnone | ⟨hrequired, hrest, hnext⟩ := hharmless.kind
    · rw [hnone]
      rfl
    · simp only [hrequired, optResult, hrest, hnext, hharmless.1, ne_eq, not_true_eq_false,
        if_false, Bool.false_eq_true]
  · rw [if_neg hc, codeKind_ne hc]

theorem OptSpec.codeResult_ne (hc : o.c = ':'.toUInt8) (h : ¬ spec.HarmlessColon o) :
    spec.codeResult o ≠ optResult (spec.lookup o.c) spec.leading o := by
  intro heq
  have hfst := congrArg Prod.fst heq
  rw [codeResult, hc, codeKind_colon, lookup_colon, colon_returned h, hc] at hfst
  exact absurd hfst (by rw [optResult]; decide)

end Colons

section Diverge
variable {spec : OptSpec}

/-- Two scans that part at a colon that is not harmless. -/
def Diverge (spec : OptSpec) (os os' : List OptChar) : Prop :=
  ∃ before o after after', os = before ++ o :: after ∧ os' = before ++ o :: after' ∧
    o.c = ':'.toUInt8 ∧ ¬ spec.HarmlessColon o

theorem Diverge.append {os os' : List OptChar} (h : Diverge spec os os')
    (rest rest' : List OptChar) : Diverge spec (os ++ rest) (os' ++ rest') := by
  obtain ⟨before, o, after, after', rfl, rfl, ho⟩ := h
  exact ⟨before, o, after ++ rest, after' ++ rest', List.append_assoc _ _ _,
    List.append_assoc _ _ _, ho⟩

theorem Diverge.prepend {os os' : List OptChar} (before : List OptChar)
    (h : Diverge spec os os') : Diverge spec (before ++ os) (before ++ os') := by
  obtain ⟨between, o, after, after', rfl, rfl, ho⟩ := h
  exact ⟨before ++ between, o, after, after', (List.append_assoc _ _ _).symm,
    (List.append_assoc _ _ _).symm, ho⟩

theorem Diverge.not_harmless {os os' : List OptChar} (h : Diverge spec os os') :
    ¬ spec.ColonsHarmless os := by
  obtain ⟨before, o, after, after', rfl, -, hc, hharm⟩ := h
  exact fun hall => hharm (hall o (List.mem_append_right _ List.mem_cons_self) hc)

theorem Diverge.results_ne {os os' : List OptChar} (h : Diverge spec os os') :
    os'.map spec.codeResult ≠ os.map fun o => optResult (spec.lookup o.c) spec.leading o := by
  obtain ⟨before, o, after, after', rfl, rfl, hc, hharm⟩ := h
  intro heq
  have hat := congrArg (·[before.length]?) heq
  simp only [List.getElem?_map, List.getElem?_append_right (Nat.le_refl _), Nat.sub_self,
    List.getElem?_cons_zero, Option.map_some, Option.some.injEq] at hat
  exact spec.codeResult_ne hc hharm hat

theorem clusterChars_cons (kind : UInt8 → Option ArgKind) (next : Option CString) (c : UInt8)
    (rest : List UInt8) :
    ∃ os, (clusterChars kind next (c :: rest)).1 = ⟨c, rest, next⟩ :: os := by
  rw [clusterChars]
  split
  · exact ⟨[], rfl⟩
  · exact ⟨_, rfl⟩

theorem clusterChars_ends {kind : UInt8 → Option ArgKind} {c : UInt8}
    (h : takesArgument (kind c)) (next : Option CString) (rest : List UInt8) :
    clusterChars kind next (c :: rest) =
      ([⟨c, rest, next⟩], takesNext (kind c) ⟨c, rest, next⟩) :=
  if_pos h

theorem clusterChars_more {kind : UInt8 → Option ArgKind} {c : UInt8}
    (h : ¬ takesArgument (kind c)) (next : Option CString) (rest : List UInt8) :
    clusterChars kind next (c :: rest) =
      (⟨c, rest, next⟩ :: (clusterChars kind next rest).1, (clusterChars kind next rest).2) :=
  if_neg h

theorem OptSpec.colonsHarmless_cons {o : OptChar} {os : List OptChar}
    (ho : o.c = ':'.toUInt8 → spec.HarmlessColon o) (h : spec.ColonsHarmless os) :
    spec.ColonsHarmless (o :: os) :=
  List.forall_mem_cons.mpr ⟨ho, h⟩

/-- The options of one argument as they are defined and as the code has them. -/
theorem clusterChars_same_or (next : Option CString) (cs : List UInt8) :
    spec.ColonsHarmless (clusterChars spec.lookup next cs).1 ∧
        clusterChars spec.codeKind next cs = clusterChars spec.lookup next cs ∨
      Diverge spec (clusterChars spec.lookup next cs).1 (clusterChars spec.codeKind next cs).1 := by
  induction cs with
  | nil => exact .inl ⟨fun o ho => absurd ho List.not_mem_nil, rfl⟩
  | cons c rest ih =>
    let o : OptChar := ⟨c, rest, next⟩
    have hnil : spec.ColonsHarmless [] := fun o ho => absurd ho List.not_mem_nil
    by_cases hharm : o.c = ':'.toUInt8 → spec.HarmlessColon o
    · by_cases hkind : spec.codeKind c = spec.lookup c
      · by_cases htakes : takesArgument (spec.lookup c)
        · rw [clusterChars_ends htakes, clusterChars_ends (hkind ▸ htakes), hkind]
          exact .inl ⟨OptSpec.colonsHarmless_cons hharm hnil, rfl⟩
        · rw [clusterChars_more htakes, clusterChars_more (hkind ▸ htakes)]
          obtain ⟨hall, hsame⟩ | hdiverge := ih
          · rw [hsame]
            exact .inl ⟨OptSpec.colonsHarmless_cons hharm hall, rfl⟩
          · exact .inr (hdiverge.prepend [o])
      · -- The colon as the last character of the last argument.
        have hc : c = ':'.toUInt8 := by
          by_contra hne
          exact hkind (OptSpec.codeKind_ne hne)
        subst hc
        obtain hnone | ⟨hrequired, hrest, hnext⟩ := (hharm rfl).kind
        · exact absurd (by rw [OptSpec.codeKind_colon, OptSpec.lookup_colon, hnone]) hkind
        · have hcode : spec.codeKind ':'.toUInt8 = some .required :=
            spec.codeKind_colon.trans hrequired
          have hlookup : ¬ takesArgument (spec.lookup ':'.toUInt8) := by
            rw [OptSpec.lookup_colon]
            exact Bool.false_ne_true
          obtain rfl : rest = [] := hrest
          obtain rfl : next = none := hnext
          rw [clusterChars_more hlookup, clusterChars_ends (by rw [hcode]; rfl), hcode]
          exact .inl ⟨OptSpec.colonsHarmless_cons hharm hnil, rfl⟩
    · obtain ⟨hc, hharm⟩ := Classical.not_imp.mp hharm
      obtain ⟨after, hlookup⟩ := clusterChars_cons spec.lookup next c rest
      obtain ⟨after', hcode⟩ := clusterChars_cons spec.codeKind next c rest
      exact .inr ⟨[], o, after, after', hlookup, hcode, hc, hharm⟩

/-- The options of the arguments, likewise. The induction is on the arguments. -/
theorem optChars_same_or (taken : Bool) (args : List CString) :
    spec.ColonsHarmless (optChars spec.lookup taken args).1 ∧
        optChars spec.codeKind taken args = optChars spec.lookup taken args ∨
      Diverge spec (optChars spec.lookup taken args).1 (optChars spec.codeKind taken args).1 := by
  have hnil : spec.ColonsHarmless [] := fun o ho => absurd ho List.not_mem_nil
  induction args generalizing taken with
  | nil => exact .inl ⟨hnil, rfl⟩
  | cons arg args ih =>
    cases taken with
    | true =>
      obtain ⟨hall, hsame⟩ | hdiverge := ih false
      · exact .inl ⟨hall, congrArg (fun os => (os.1, os.2 + 1)) hsame⟩
      · exact .inr hdiverge
    | false =>
      obtain ⟨-, hnone⟩ | ⟨-, hend⟩ | ⟨cs, -, -, -, hopts⟩ := optChars_cases arg args
      · rw [hnone, hnone]
        exact .inl ⟨hnil, rfl⟩
      · rw [hend, hend]
        exact .inl ⟨hnil, rfl⟩
      · rw [hopts, hopts]
        obtain ⟨hall, hsame⟩ | hdiverge := @clusterChars_same_or spec args.head? cs
        · rw [hsame]
          obtain ⟨hall', hsame'⟩ | hdiverge' := ih (clusterChars spec.lookup args.head? cs).2
          · rw [hsame']
            exact .inl ⟨fun o ho => (List.mem_append.mp ho).elim (hall o) (hall' o), rfl⟩
          · exact .inr (hdiverge'.prepend _)
        · exact .inr (hdiverge.append _ _)

end Diverge

theorem Calls.unique {argv : List CString} {optstring : CString} {s s₁ s₂ : GetoptState}
    {rets₁ rets₂ : List (UInt8 × Option (List UInt8))} (h₁ : Calls argv optstring s rets₁ s₁)
    (h₂ : Calls argv optstring s rets₂ s₂) : rets₁ = rets₂ ∧ s₁ = s₂ := by
  induction h₁ generalizing rets₂ with
  | last h =>
    cases h₂ with
    | last h' => exact ⟨rfl, (Prod.mk.inj (Option.some.inj (h.symm.trans h'))).2⟩
    | more h' _ =>
      have hcall := congrArg (·.1.ret) (Option.some.inj (h.symm.trans h'))
      exact absurd hcall.symm (Option.some_ne_none _)
  | more h _ ih =>
    cases h₂ with
    | last h' =>
      have hcall := congrArg (·.1.ret) (Option.some.inj (h.symm.trans h'))
      exact absurd hcall (Option.some_ne_none _)
    | more h' hrest =>
      obtain ⟨hcall, rfl⟩ := Prod.mk.inj (Option.some.inj (h.symm.trans h'))
      obtain rfl := Option.some.inj (GetoptCall.mk.inj hcall).1
      obtain ⟨rfl, rfl⟩ := ih hrest
      exact ⟨rfl, rfl⟩

section Posix
variable (spec : OptSpec) (argv : List CString)

/-- The calls have the results of the definition of `getopt` and end at its operands. -/
def PosixCalls (rets : List (UInt8 × Option (List UInt8))) (s : GetoptState) : Prop :=
  rets.map spec.observe = spec.posixResults argv ∧ s.optind = spec.posixOptind argv ∧
    s.optind ≤ argv.length

/-- The calls come to an end without a read out of bounds, and have the defined results
exactly for a command line with no colon that can pass for an option. -/
theorem getopt_posix_iff :
    ∃ rets s, Calls argv spec.text getoptReset rets s ∧
      (argv ≠ [] → s.optind ≤ argv.length) ∧
        (PosixCalls spec argv rets s ↔ argv ≠ [] ∧ spec.ColonsHarmless (spec.posixChars argv)) := by
  have hargs : argv.drop 1 = argv.tail := List.drop_one
  obtain ⟨rets, s, hcalls, hmap, hind⟩ := @calls_args argv spec getoptReset 1 argv.tail false
    hargs (Nat.zero_lt_one) ⟨rfl, rfl⟩ (fun h => absurd h Bool.false_ne_true)
  have hle (hargv : argv ≠ []) : s.optind ≤ argv.length := by
    have hpos := List.length_pos_iff.mpr hargv
    have hused := optChars_le spec.codeKind false argv.tail
    rw [List.length_tail] at hused
    omega
  refine ⟨rets, s, hcalls, hle, ?_⟩
  rw [PosixCalls, hmap]
  obtain ⟨hall, hsame⟩ | hdiverge := @optChars_same_or spec false argv.tail
  · rw [hsame] at hind ⊢
    have hresults : (optChars spec.lookup false argv.tail).1.map spec.codeResult =
        spec.posixResults argv :=
      List.map_congr_left fun o ho => OptSpec.codeResult_harmless (hall o ho)
    constructor
    · rintro ⟨-, -, hlast⟩
      refine ⟨?_, hall⟩
      rintro rfl
      rw [hind] at hlast
      exact Nat.not_succ_le_zero 0 hlast
    · exact fun h => ⟨hresults, hind, hle h.1⟩
  · constructor
    · exact fun h => absurd h.1 hdiverge.results_ne
    · exact fun h => absurd h.2 hdiverge.not_harmless

end Posix

/-- `-:` where only `a`, with an argument, is an option. -/
theorem colon_taken_for_option :
    ¬ ∀ (spec : OptSpec) (argv : List CString),
      ∃ rets s, Calls argv spec.text getoptReset rets s ∧ PosixCalls spec argv rets s := by
  intro h
  let spec : OptSpec := ⟨false, [⟨'a'.toUInt8, .required, rfl⟩]⟩
  let argv : List CString := [.ofBuffer [0x70], .ofBuffer [0x2d, 0x3a]]
  obtain ⟨rets, s, hcalls, hposix⟩ := h spec argv
  let s₁ : GetoptState := ⟨none, 2, true, 0, 1⟩
  have hcolon : getopt argv spec.text getoptReset = some (⟨some ':'.toUInt8, []⟩, s₁) := rfl
  have hend : getopt argv spec.text s₁ = some (⟨none, []⟩, s₁) := rfl
  obtain ⟨rfl, -⟩ := hcalls.unique (.more hcolon (.last hend))
  exact absurd hposix.1 (by decide)

end Plo.Lib
