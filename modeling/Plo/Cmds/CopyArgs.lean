import Plo.Cmds.Copy

/-!
What the copy command makes of its arguments. A side is written in one of two forms,
which its second argument tells apart. The command takes exactly the command lines made
of two forms, except that an offset at the end of the line is followed by an argument that
is not there, and that arguments behind the second form are not looked at.
-/
namespace Plo.Cmds
open Phfs Lib
variable {w : Nat}

/-- An argument that is a number as a whole. -/
def IsNumber (arg : CString) : Prop := (strtoul arg 0 : BitVec w × List UInt8).2 = []

/-- One side of the command as it is written. -/
inductive Form
  | file (dev name : CString)
  | raw (dev offs size : CString)

namespace Form

def args : Form → List CString
  | file dev name => [dev, name]
  | raw dev offs size => [dev, offs, size]

def Valid (w : Nat) : Form → Prop
  | file _ name => ¬ IsNumber (w := w) name
  | raw _ offs size => IsNumber (w := w) offs ∧ IsNumber (w := w) size

/-- The result of opening a side and what is known of it then. -/
def opened (opener : Opener) (isDst : Bool) : Form → Int × Side w
  | file dev name =>
    ((opener dev (some name) (openFlags isDst)).1,
      ⟨(opener dev (some name) (openFlags isDst)).2, 0, 0, some name⟩)
  | raw dev offs size =>
    ((opener dev none 0).1, ⟨(opener dev none 0).2, (strtoul offs 0).1, (strtoul size 0).1, none⟩)

/-- The second argument tells which form it is. -/
theorem eq_of_args_append {f g : Form} {rest rest' : List CString} (hf : f.Valid w)
    (hg : g.Valid w) (h : f.args ++ rest = g.args ++ rest') : f = g ∧ rest = rest' := by
  cases f with
  | file dev name =>
      cases g with
      | file dev' name' =>
          cases h
          exact ⟨rfl, rfl⟩
      | raw dev' offs size =>
          cases h
          exact absurd hg.1 hf
  | raw dev offs size =>
      cases g with
      | file dev' name =>
          cases h
          exact absurd hf.1 hg
      | raw dev' offs' size' =>
          cases h
          exact ⟨rfl, rfl⟩

end Form

section DevParse
variable {opener : Opener} {argv rest : List CString} {isDst : Bool} {argvID : Nat}

theorem getElem?_of_drop (h : argv.drop argvID = rest) (k : Nat) : argv[argvID + k]? = rest[k]? := by
  rw [← h, List.getElem?_drop]

/-- There is room for a second argument exactly when there is one. -/
theorem lt_length_of_drop {dev arg : CString} (h : argv.drop argvID = dev :: arg :: rest) :
    ¬ argvID + 1 ≥ argv.length := by
  have hlen := congrArg List.length h
  simp only [List.length_drop, List.length_cons] at hlen
  omega

/-- A side that opens is read as its form says. -/
theorem devParse_form {f : Form} (hf : f.Valid w) (h : argv.drop argvID = f.args ++ rest) :
    devParse opener argv isDst argvID =
      if (f.opened (w := w) opener isDst).1 < 0 then .error (f.opened (w := w) opener isDst).1
      else .ok (f.opened (w := w) opener isDst).2 (argvID + f.args.length) := by
  have hget := getElem?_of_drop h
  have hzero : argv[argvID]? = (f.args ++ rest)[0]? := hget 0
  cases f with
  | file dev name =>
      simp only [devParse, if_neg (lt_length_of_drop h), hzero, hget 1, Form.args]
      exact if_pos hf
  | raw dev offs size =>
      simp only [devParse, if_neg (lt_length_of_drop h), hzero, hget 1, hget 2, Form.args]
      exact (if_neg (not_not.mpr hf.1)).trans (if_neg (not_not.mpr hf.2))

/-- An offset at the end of the line. -/
theorem devParse_null {dev offs : CString} (hoffs : IsNumber (w := w) offs)
    (h : argv.drop argvID = [dev, offs]) :
    devParse (w := w) opener argv isDst argvID = .null := by
  have hget := getElem?_of_drop h
  have hzero : argv[argvID]? = [dev, offs][0]? := hget 0
  simp only [devParse, if_neg (lt_length_of_drop h), hzero, hget 1, hget 2]
  exact if_neg (not_not.mpr hoffs)

/-- Anything else is an error. -/
theorem devParse_error (hnull : ∀ dev offs, argv.drop argvID = [dev, offs] → ¬ IsNumber (w := w) offs)
    (hform : ∀ (f : Form) (rest : List CString), f.Valid w → argv.drop argvID ≠ f.args ++ rest) :
    devParse (w := w) opener argv isDst argvID = .error (-EINVAL) := by
  match h : argv.drop argvID with
  | [] | [_] =>
      have hlen := congrArg List.length h
      simp only [List.length_drop, List.length_cons, List.length_nil] at hlen
      exact if_pos (by omega)
  | dev :: arg :: rest =>
      have hnum : IsNumber (w := w) arg :=
        not_not.mp fun hname => hform (.file dev arg) rest hname h
      cases rest with
      | nil => exact absurd hnum (hnull dev arg h)
      | cons size rest =>
          have hsize : ¬ IsNumber (w := w) size :=
            fun hsize => hform (.raw dev arg size) rest ⟨hnum, hsize⟩ h
          have hget := getElem?_of_drop h
          have hzero : argv[argvID]? = (dev :: arg :: size :: rest)[0]? := hget 0
          simp only [devParse, if_neg (lt_length_of_drop h), hzero, hget 1, hget 2]
          exact (if_neg (not_not.mpr hnum)).trans (if_pos hsize)

theorem devParse_eq_null (h : devParse (w := w) opener argv isDst argvID = .null) :
    ∃ dev offs, argv.drop argvID = [dev, offs] ∧ IsNumber (w := w) offs := by
  by_contra hnull
  by_cases hform : ∃ (f : Form) (rest : List CString), f.Valid w ∧ argv.drop argvID = f.args ++ rest
  · obtain ⟨f, rest, hf, hdrop⟩ := hform
    rw [devParse_form hf hdrop] at h
    split at h <;> cases h
  · rw [devParse_error (fun dev offs hdrop hoffs => hnull ⟨dev, offs, hdrop, hoffs⟩)
      (fun f rest hf hdrop => hform ⟨f, rest, hf, hdrop⟩)] at h
    cases h

theorem devParse_eq_ok {side : Side w} {next : Nat}
    (h : devParse opener argv isDst argvID = .ok side next) :
    ∃ (f : Form) (rest : List CString), f.Valid w ∧ argv.drop argvID = f.args ++ rest ∧
      0 ≤ (f.opened (w := w) opener isDst).1 ∧ (f.opened opener isDst).2 = side ∧
      argvID + f.args.length = next := by
  by_cases hform : ∃ (f : Form) (rest : List CString), f.Valid w ∧ argv.drop argvID = f.args ++ rest
  · obtain ⟨f, rest, hf, hdrop⟩ := hform
    rw [devParse_form hf hdrop] at h
    split at h
    · cases h
    · rename_i hopen
      cases h
      exact ⟨f, rest, hf, hdrop, Int.not_lt.mp hopen, rfl, rfl⟩
  · by_cases hnull : ∃ dev offs, argv.drop argvID = [dev, offs] ∧ IsNumber (w := w) offs
    · obtain ⟨dev, offs, hdrop, hoffs⟩ := hnull
      rw [devParse_null hoffs hdrop] at h
      cases h
    · rw [devParse_error (fun dev offs hdrop hoffs => hnull ⟨dev, offs, hdrop, hoffs⟩)
        (fun f rest hf hdrop => hform ⟨f, rest, hf, hdrop⟩)] at h
      cases h

end DevParse

/-- The line ends behind the offset of the destination. -/
def MissingSize (w : Nat) (opener : Bool → Opener) (argv : List CString) : Prop :=
  ∃ (f : Form) (dev offs : CString), f.Valid w ∧ 0 ≤ (f.opened (w := w) (opener false) false).1 ∧
    IsNumber (w := w) offs ∧ argv.tail = f.args ++ [dev, offs]

/-- Two sides that open and something behind them. -/
def SurplusArgs (w : Nat) (opener : Bool → Opener) (argv : List CString) : Prop :=
  ∃ (f g : Form) (surplus : List CString), f.Valid w ∧ g.Valid w ∧
    0 ≤ (f.opened (w := w) (opener false) false).1 ∧
    0 ≤ (g.opened (w := w) (opener true) true).1 ∧ surplus ≠ [] ∧
    argv.tail = f.args ++ (g.args ++ surplus)

/-- No argument is used that is not there; a line that is accepted was used up and is the one
source and the one destination it is read as; and every line of two forms that open is
accepted as them. -/
structure ArgsRight (opener : Bool → Opener) (argv : List CString) : Prop where
  inside : copyArgs (w := w) opener argv ≠ .null
  consumed : ∀ src dst argvID, copyArgs (w := w) opener argv = .accepted src dst argvID →
    argvID = argv.length
  forms : ∀ src dst argvID, copyArgs (w := w) opener argv = .accepted src dst argvID →
    ∃! sides : Form × Form, sides.1.Valid w ∧ sides.2.Valid w ∧
      argv.tail = sides.1.args ++ sides.2.args ∧
      (sides.1.opened (opener false) false).2 = src ∧ (sides.2.opened (opener true) true).2 = dst
  accepts : ∀ f g : Form, f.Valid w → g.Valid w → argv.tail = f.args ++ g.args →
    0 ≤ (f.opened (w := w) (opener false) false).1 → 0 ≤ (g.opened (w := w) (opener true) true).1 →
    copyArgs opener argv = .accepted (f.opened (w := w) (opener false) false).2
      (g.opened (w := w) (opener true) true).2 argv.length

section CopyArgs
variable {opener : Bool → Opener} {argv : List CString}

theorem two_le_length_args (f : Form) : 2 ≤ f.args.length := by
  cases f <;> simp [Form.args]

/-- What is left of the line behind the first side. -/
theorem drop_args {f : Form} {rest : List CString} (h : argv.tail = f.args ++ rest) :
    argv.drop (1 + f.args.length) = rest := by
  rw [← List.drop_drop, List.drop_one, h, List.drop_left]

/-- The line is read by its first side and then by what is left. -/
theorem devParse_source {f : Form} {rest : List CString} (hf : f.Valid w)
    (h : argv.tail = f.args ++ rest) (hopen : 0 ≤ (f.opened (w := w) (opener false) false).1) :
    devParse (opener false) argv false 1 =
      .ok (f.opened (w := w) (opener false) false).2 (1 + f.args.length) := by
  have hdrop : argv.drop 1 = f.args ++ rest := by rw [List.drop_one, h]
  rw [devParse_form hf hdrop, if_neg (Int.not_lt.mpr hopen)]

theorem five_le_length {f : Form} {rest : List CString} (h : argv.tail = f.args ++ rest)
    (hrest : 2 ≤ rest.length) : ¬ argv.length < 5 := by
  have hlen := congrArg List.length h
  have htwo := two_le_length_args f
  simp only [List.length_tail, List.length_append] at hlen
  omega

theorem copyArgs_missingSize (h : MissingSize w opener argv) :
    copyArgs (w := w) opener argv = .null := by
  obtain ⟨f, dev, offs, hf, hopen, hoffs, hargv⟩ := h
  simp only [copyArgs, if_neg (five_le_length hargv (Nat.le_refl 2)), devParse_source hf hargv hopen,
    devParse_null hoffs (drop_args hargv)]

theorem missingSize_of_null (h : copyArgs (w := w) opener argv = .null) :
    MissingSize w opener argv := by
  simp only [copyArgs] at h
  split at h
  · cases h
  · rename_i hargc
    split at h
    · rename_i hsrc
      obtain ⟨dev, offs, hdrop, -⟩ := devParse_eq_null hsrc
      have hlen := congrArg List.length hdrop
      simp only [List.length_drop, List.length_cons, List.length_nil] at hlen
      omega
    · cases h
    · rename_i hsrc
      obtain ⟨f, rest, hf, hdrop, hopen, rfl, rfl⟩ := devParse_eq_ok hsrc
      rw [List.drop_one] at hdrop
      split at h
      · rename_i hdst
        obtain ⟨dev, offs, hrest, hoffs⟩ := devParse_eq_null hdst
        rw [drop_args hdrop] at hrest
        exact ⟨f, dev, offs, hf, hopen, hoffs, by rw [hdrop, hrest]⟩
      · cases h
      · cases h

theorem forms_of_accepted {src dst : Side w} {argvID : Nat}
    (h : copyArgs opener argv = .accepted src dst argvID) :
    ∃ (f g : Form) (surplus : List CString), f.Valid w ∧ g.Valid w ∧
      0 ≤ (f.opened (w := w) (opener false) false).1 ∧
      0 ≤ (g.opened (w := w) (opener true) true).1 ∧
      argv.tail = f.args ++ (g.args ++ surplus) ∧ (f.opened (opener false) false).2 = src ∧
      (g.opened (opener true) true).2 = dst ∧ argvID = 1 + f.args.length + g.args.length := by
  simp only [copyArgs] at h
  split at h
  · cases h
  · split at h
    · cases h
    · cases h
    · rename_i hsrc
      obtain ⟨f, rest, hf, hdrop, hopen, rfl, rfl⟩ := devParse_eq_ok hsrc
      rw [List.drop_one] at hdrop
      split at h
      · cases h
      · cases h
      · rename_i hdst
        obtain ⟨g, surplus, hg, hrest, hopen', rfl, rfl⟩ := devParse_eq_ok hdst
        rw [drop_args hdrop] at hrest
        cases h
        exact ⟨f, g, surplus, hf, hg, hopen, hopen', by rw [hdrop, hrest], rfl, rfl, rfl⟩

/-- Two sides that open are accepted whatever is behind them. -/
theorem copyArgs_forms {f g : Form} {surplus : List CString} (hf : f.Valid w) (hg : g.Valid w)
    (h : argv.tail = f.args ++ (g.args ++ surplus))
    (hopen : 0 ≤ (f.opened (w := w) (opener false) false).1)
    (hopen' : 0 ≤ (g.opened (w := w) (opener true) true).1) :
    copyArgs opener argv = .accepted (f.opened (w := w) (opener false) false).2
      (g.opened (w := w) (opener true) true).2 (1 + f.args.length + g.args.length) := by
  have htwo := two_le_length_args g
  have hargc := five_le_length h (by rw [List.length_append]; omega)
  simp only [copyArgs, if_neg hargc, devParse_source hf h hopen, devParse_form hg (drop_args h),
    if_neg (Int.not_lt.mpr hopen')]

end CopyArgs

/-- The arguments are read right exactly when the line neither ends behind the offset of the
destination nor goes on behind the second side. -/
theorem copy_args_right_iff (opener : Bool → Opener) (argv : List CString) :
    ArgsRight (w := w) opener argv ↔
      ¬ MissingSize w opener argv ∧ ¬ SurplusArgs w opener argv := by
  constructor
  · intro h
    constructor
    · exact fun hsize => h.inside (copyArgs_missingSize hsize)
    · rintro ⟨f, g, surplus, hf, hg, hopen, hopen', hne, hargv⟩
      have hend := h.consumed _ _ _ (copyArgs_forms hf hg hargv hopen hopen')
      have hlen := congrArg List.length hargv
      have hpos := List.length_pos_iff.mpr hne
      simp only [List.length_tail, List.length_append] at hlen
      omega
  · rintro ⟨hsize, hsurplus⟩
    have hforms : ∀ src dst argvID, copyArgs (w := w) opener argv = .accepted src dst argvID →
        ∃ f g : Form, f.Valid w ∧ g.Valid w ∧ argv.tail = f.args ++ g.args ∧
          (f.opened (opener false) false).2 = src ∧ (g.opened (opener true) true).2 = dst ∧
          argvID = 1 + f.args.length + g.args.length := by
      intro src dst argvID h
      obtain ⟨f, g, surplus, hf, hg, hopen, hopen', hargv, hsrc, hdst, hid⟩ := forms_of_accepted h
      cases surplus with
      | nil =>
          rw [List.append_nil] at hargv
          exact ⟨f, g, hf, hg, hargv, hsrc, hdst, hid⟩
      | cons arg surplus =>
          exact absurd ⟨f, g, arg :: surplus, hf, hg, hopen, hopen', List.cons_ne_nil _ _, hargv⟩
            hsurplus
    have hlength : ∀ f g : Form, argv.tail = f.args ++ g.args →
        1 + f.args.length + g.args.length = argv.length := by
      intro f g hargv
      have hlen := congrArg List.length hargv
      have htwo := two_le_length_args f
      simp only [List.length_tail, List.length_append] at hlen
      omega
    refine ⟨fun h => hsize (missingSize_of_null h), ?_, ?_, ?_⟩
    · intro src dst argvID h
      obtain ⟨f, g, -, -, hargv, -, -, rfl⟩ := hforms src dst argvID h
      exact hlength f g hargv
    · intro src dst argvID h
      obtain ⟨f, g, hf, hg, hargv, hsrc, hdst, -⟩ := hforms src dst argvID h
      refine ⟨(f, g), ⟨hf, hg, hargv, hsrc, hdst⟩, ?_⟩
      rintro ⟨f', g'⟩ ⟨hf', hg', hargv', -, -⟩
      obtain ⟨rfl, hrest⟩ := Form.eq_of_args_append hf' hf (hargv'.symm.trans hargv)
      have hrest' : g'.args ++ [] = g.args ++ [] := by rw [List.append_nil, List.append_nil, hrest]
      obtain ⟨rfl, -⟩ := Form.eq_of_args_append hg' hg hrest'
      rfl
    · intro f g hf hg hargv hopen hopen'
      have hargv' : argv.tail = f.args ++ (g.args ++ []) := by rw [List.append_nil, hargv]
      rw [copyArgs_forms hf hg hargv' hopen hopen', hlength f g hargv]

/-- `copy d f d 0`: the size is read through the pointer behind the last argument. -/
theorem offset_at_end_reads_null :
    copyArgs (w := 32) (fun _ _ _ _ => (EOK, ⟨0, 0⟩))
        [⟨[0x63, 0x6f, 0x70, 0x79], by decide⟩, ⟨[0x64], by decide⟩, ⟨[0x66], by decide⟩,
          ⟨[0x64], by decide⟩, ⟨[0x30], by decide⟩] = .null ∧
      ¬ ArgsRight (w := 32) (fun _ _ _ _ => (EOK, ⟨0, 0⟩))
        [⟨[0x63, 0x6f, 0x70, 0x79], by decide⟩, ⟨[0x64], by decide⟩, ⟨[0x66], by decide⟩,
          ⟨[0x64], by decide⟩, ⟨[0x30], by decide⟩] :=
  ⟨rfl, fun h => h.inside rfl⟩

end Plo.Cmds
