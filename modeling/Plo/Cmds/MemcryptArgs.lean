import Plo.Cmds.MemcryptHex
import Plo.Lib.GetoptPosix

/-!
What the command makes of its options. The loop takes them in the order in which they
are returned and always comes to an end; the key and the initial value are those of the
last option for them.
-/
namespace Plo.Cmds.Memcrypt
open Lib

/-- An option as it is returned, with its argument. -/
abbrev Returned := UInt8 × Option (List UInt8)

/-- The string an option is parsed from. -/
def Returned.string (r : Returned) : CString := (optionArgument r.1 r.2).getD (.ofBuffer [])

/-- The options parsed one after another, up to the first that is wrong. -/
def foldOptions (p : Parsed) (rets : List Returned) : Except Int Parsed :=
  rets.foldlM (fun p r => parseOption p r.1 r.string) p

/-- The argument of the last option `c`. -/
def lastArg (c : UInt8) : List Returned → Option CString
  | [] => none
  | r :: rets => (lastArg c rets).or (if r.1 = c then some r.string else none)

/-- The argument of an option that needs one is there. -/
def Returned.HasArgument (r : Returned) : Prop :=
  takesArgument (options.lookup r.1) → r.2.isSome

theorem Returned.HasArgument.eq_string {r : Returned} (h : r.HasArgument) :
    optionArgument r.1 r.2 = some r.string := by
  have hsome : (optionArgument r.1 r.2).isSome := by
    rw [optionArgument]
    split
    · next htakes =>
      rw [Option.isSome_map]
      exact h htakes
    · rfl
  rw [Returned.string, Option.getD_of_ne_none (Option.isSome_iff_ne_none.mp hsome)]

theorem foldOptions_cons (p : Parsed) (r : Returned) (rets : List Returned) :
    foldOptions p (r :: rets) =
      match parseOption p r.1 r.string with
      | .error ret => .error ret
      | .ok p => foldOptions p rets := by
  rw [foldOptions, List.foldlM_cons]
  cases parseOption p r.1 r.string <;> rfl

section Loop
variable {argv : List CString} {s s' : GetoptState} {rets : List Returned}

/-- With a turn for each option and one more the loop comes to its end. -/
theorem parseOptions_eq (hcalls : Calls argv options.text s rets s')
    (hargs : ∀ r ∈ rets, Returned.HasArgument r) {turns : Nat} (hturns : rets.length < turns)
    (p : Parsed) :
    parseOptions argv turns p s = some ((foldOptions p rets).map (·, s')) := by
  induction hcalls generalizing turns p with
  | last h =>
      obtain ⟨turns, rfl⟩ := Nat.exists_eq_add_one_of_ne_zero (Nat.ne_zero_of_lt hturns)
      rw [parseOptions, h]
      rfl
  | @more s s₁ s' c printed rets h rest ih =>
      obtain ⟨turns, rfl⟩ := Nat.exists_eq_add_one_of_ne_zero (Nat.ne_zero_of_lt hturns)
      rw [List.forall_mem_cons] at hargs
      rw [parseOptions, h, foldOptions_cons]
      simp only [Option.bind_eq_bind, Option.bind_some, hargs.1.eq_string]
      cases parseOption p c (Returned.string (c, s₁.optarg)) with
      | error ret => rfl
      | ok p => exact ih hargs.2 (Nat.lt_of_succ_lt_succ hturns) p

theorem clusterChars_length (kind : UInt8 → Option ArgKind) (next : Option CString)
    (cs : List UInt8) : (clusterChars kind next cs).1.length ≤ cs.length := by
  induction cs with
  | nil => exact Nat.le_refl 0
  | cons c rest ih =>
      rw [clusterChars]
      split
      · exact Nat.succ_le_succ (Nat.zero_le _)
      · exact Nat.succ_le_succ ih

/-- There are no more options than characters. -/
theorem optChars_length (kind : UInt8 → Option ArgKind) (taken : Bool) (args : List CString) :
    (optChars kind taken args).1.length ≤ (args.map fun arg => arg.bytes.length).sum := by
  induction args generalizing taken with
  | nil => exact Nat.le_refl 0
  | cons arg args ih =>
      rw [List.map_cons, List.sum_cons]
      cases taken with
      | true => exact Nat.le_trans (ih false) (Nat.le_add_left _ _)
      | false =>
          obtain ⟨-, hnone⟩ | ⟨-, hend⟩ | ⟨cs, hbytes, -, -, hopts⟩ := optChars_cases arg args
          · rw [hnone kind]
            exact Nat.zero_le _
          · rw [hend kind]
            exact Nat.zero_le _
          · have hcluster := clusterChars_length kind args.head? cs
            have hrest := ih (clusterChars kind args.head? cs).2
            rw [hopts kind, List.length_append, hbytes, List.length_cons]
            omega

theorem lookup_ne_optional (c : UInt8) : options.lookup c ≠ some .optional := by
  refine forall_byte (P := fun c => options.lookup c ≠ some .optional) ?_ c
  decide +kernel

/-- An option character that is returned as an option with an argument has it. -/
theorem hasArgument_of_observe {r : Returned} {o : OptChar}
    (h : options.observe r = options.codeResult o) : r.HasArgument := by
  intro htakes
  rw [OptSpec.observe, if_pos htakes, OptSpec.codeResult, Prod.mk.injEq] at h
  obtain ⟨hret, harg⟩ := h
  by_cases hcolon : o.c = ':'.toUInt8
  · have hkind : options.codeKind ':'.toUInt8 = some .flag := by decide +kernel
    rw [hcolon, hkind, optResult] at hret
    rw [hret, hcolon, options.lookup_colon] at htakes
    exact absurd htakes Bool.false_ne_true
  · have hquestion : options.lookup '?'.toUInt8 = none := by decide +kernel
    rw [options.codeKind_ne hcolon] at hret
    rw [if_neg hcolon] at harg
    cases hkind : options.lookup o.c with
    | none =>
      rw [hkind, optResult] at hret
      rw [hret, hquestion] at htakes
      exact absurd htakes Bool.false_ne_true
    | some kind =>
      rw [hkind] at hret harg
      cases kind with
      | flag =>
        rw [optResult] at hret
        rw [hret, hkind] at htakes
        exact absurd htakes Bool.false_ne_true
      | optional => exact absurd hkind (lookup_ne_optional o.c)
      | required =>
        rw [optResult] at hret harg
        by_cases hrest : o.rest = []
        · rw [if_neg (not_not_intro hrest)] at hret harg
          cases hnext : o.next with
          | some arg =>
            rw [hnext] at harg
            rw [harg]
            rfl
          | none =>
            rw [hnext] at hret
            have hreturned : r.1 = '?'.toUInt8 := hret
            rw [hreturned, hquestion] at htakes
            exact absurd htakes Bool.false_ne_true
        · rw [harg, if_pos hrest]
          rfl

/-- The loop over the options always comes to its end. -/
theorem parseOptions_calls (argv : List CString) :
    ∃ rets s', Calls argv options.text getoptReset rets s' ∧
      parseOptions argv (optionTurns argv) ⟨.zeroed, false, false, false⟩ getoptReset =
        some ((foldOptions ⟨.zeroed, false, false, false⟩ rets).map (·, s')) := by
  obtain ⟨rets, s', hcalls, hmap, -⟩ := @calls_args argv options getoptReset 1 argv.tail false
    List.drop_one (Nat.zero_lt_one) ⟨rfl, rfl⟩ (fun h => absurd h Bool.false_ne_true)
  have hlen : rets.length = (optChars options.codeKind false argv.tail).1.length := by
    rw [← List.length_map, hmap, List.length_map]
  have hchars := optChars_length options.codeKind false argv.tail
  have htail : (argv.tail.map fun arg => arg.bytes.length).sum ≤
      (argv.map fun arg => arg.bytes.length).sum := by
    cases argv with
    | nil => exact Nat.le_refl 0
    | cons arg args => exact Nat.le_add_left _ _
  refine ⟨rets, s', hcalls, parseOptions_eq hcalls (fun r hr => ?_) ?_ _⟩
  · have hmem := List.mem_map_of_mem (f := options.observe) hr
    rw [hmap] at hmem
    obtain ⟨o, -, ho⟩ := List.mem_map.mp hmem
    exact hasArgument_of_observe ho.symm
  · rw [optionTurns]
    omega

end Loop

section Last

/-- The buffer is what the last option `c` makes of one it finds, unless there is no such
option. -/
def ParsedBuffer (before buf : Buffer) : Option CString → Prop
  | none => buf = before
  | some arg => ∃ found, parseBuffer arg found = .ok buf

theorem parseEncr_buffers {arg : CString} {params params' : Params}
    (h : parseEncr arg params = .ok params') :
    params'.key = params.key ∧ params'.iv = params.iv := by
  simp only [parseEncr] at h
  split at h
  · cases h
  · split at h
    · cases h
    · cases h
      exact ⟨rfl, rfl⟩

/-- One option changes the key, the initial value, or neither. -/
theorem parseOption_buffers {p p' : Parsed} {c : UInt8} {arg : CString}
    (h : parseOption p c arg = .ok p') :
    ParsedBuffer p.params.key p'.params.key (if c = 'k'.toUInt8 then some arg else none) ∧
      ParsedBuffer p.params.iv p'.params.iv (if c = 'i'.toUInt8 then some arg else none) ∧
      p'.haveKey = (p.haveKey || decide (c = 'k'.toUInt8)) := by
  rw [parseOption] at h
  split at h
  · next hd =>
    subst hd
    split at h
    · cases h
    · split at h
      · cases h
      · cases h
        exact ⟨rfl, rfl, (Bool.or_false _).symm⟩
  · split at h
    · next hp =>
      subst hp
      split at h
      · cases h
      · next params hencr =>
        cases h
        have hsame := parseEncr_buffers hencr
        exact ⟨hsame.1, hsame.2, (Bool.or_false _).symm⟩
    · split at h
      · next hk =>
        subst hk
        split at h
        · cases h
        · next key hkey =>
          cases h
          exact ⟨⟨_, hkey⟩, rfl, (Bool.or_true _).symm⟩
      · next hk =>
        split at h
        · next hi =>
          subst hi
          split at h
          · cases h
          · next iv hiv =>
            cases h
            exact ⟨rfl, ⟨_, hiv⟩, (Bool.or_false _).symm⟩
        · cases h

theorem ParsedBuffer.trans {b b₁ b₂ : Buffer} {arg arg' : Option CString}
    (h : ParsedBuffer b b₁ arg) (h' : ParsedBuffer b₁ b₂ arg') :
    ParsedBuffer b b₂ (arg'.or arg) := by
  cases arg' with
  | some arg' => exact h'
  | none =>
      obtain rfl : b₂ = b₁ := h'
      exact h

theorem foldOptions_buffers {rets : List Returned} {p p' : Parsed}
    (h : foldOptions p rets = .ok p') :
    ParsedBuffer p.params.key p'.params.key (lastArg 'k'.toUInt8 rets) ∧
      ParsedBuffer p.params.iv p'.params.iv (lastArg 'i'.toUInt8 rets) ∧
      p'.haveKey = (p.haveKey || (lastArg 'k'.toUInt8 rets).isSome) := by
  induction rets generalizing p with
  | nil =>
      cases h
      exact ⟨rfl, rfl, (Bool.or_false _).symm⟩
  | cons r rets ih =>
      rw [foldOptions_cons] at h
      cases hstep : parseOption p r.1 r.string with
      | error ret =>
          rw [hstep] at h
          cases h
      | ok p₁ =>
          rw [hstep] at h
          obtain ⟨hkey, hiv, hhave⟩ := parseOption_buffers hstep
          obtain ⟨hkey', hiv', hhave'⟩ := ih h
          refine ⟨hkey.trans hkey', hiv.trans hiv', ?_⟩
          rw [hhave', hhave, lastArg, Option.isSome_or, Bool.or_assoc, Bool.or_comm (decide _)]
          split
          · next hk => rw [decide_eq_true hk, Option.isSome_some]
          · next hk => rw [decide_eq_false hk, Option.isSome_none]

end Last

end Plo.Cmds.Memcrypt
