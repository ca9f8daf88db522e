import Mathlib.Logic.Relation
import Plo.Base.Critical

/-!
A processor with an interrupt handler. The foreground polls with interrupts on and does
the rest of a call with interrupts off; the handler starts between any two accesses of a
poll, and the foreground waits until it has ended; the hardware acts before any access of
either. Code is proved under what else may act on the data between its accesses, and an
invariant of the foreground and the handler holds in every run whenever neither of them
is at work.
-/
namespace Plo.Interrupts
open Plo.Critical (Code)
variable {δ ω ρ ε α β : Type}

/-- Code run while something else acts on the data before each access and before the
end: if it ends, then with a result and data `Q` holds of. -/
def Under (rely : δ → δ → Prop) (Q : α → δ → Prop) : Code δ α → δ → Prop
  | .done a, d => ∀ d', rely d d' → Q a d'
  | .fail, _ => True
  | .step f next, d => ∀ d', rely d d' → Under rely Q (next d') (f d')

/-- An access that changes the data and reads of it. -/
def access (f : δ → δ) (g : δ → α) : Code δ α := .step f fun d => .done (g d)

/-- A loop that goes on as long as its body says so. Out of fuel it is still at work. -/
def loop (body : Code δ Bool) : Nat → Code δ PUnit
  | 0 => .fail
  | fuel + 1 => do if ← body then loop body fuel else return ⟨⟩

/-- Code that only looks at the data. -/
def Reads : Code δ α → Prop
  | .done _ => True
  | .fail => True
  | .step f next => f = id ∧ ∀ d, Reads (next d)

theorem reads_read {f : δ → β} {k : β → Code δ α} (h : ∀ b, Reads (k b)) :
    Reads (.read f >>= k) :=
  ⟨rfl, fun d => h (f d)⟩

theorem reads_bind {c : Code δ α} {k : α → Code δ β} (hc : Reads c) (hk : ∀ a, Reads (k a)) :
    Reads (c >>= k) := by
  induction c with
  | done a => exact hk a
  | fail => trivial
  | step f next ih => exact ⟨hc.1, fun d => ih d (hc.2 d)⟩

section Under
variable {rely : δ → δ → Prop} {Q Q' : α → δ → Prop} {c : Code δ α} {d : δ}

theorem Under.mono (h : Under rely Q c d) (hQ : ∀ a d, Q a d → Q' a d) : Under rely Q' c d := by
  induction c generalizing d with
  | done a => exact fun d' hd => hQ a d' (h d' hd)
  | fail => trivial
  | step f next ih => exact fun d' hd => ih d' (h d' hd)

/-- What acts before the code starts makes no difference. -/
theorem Under.before (h : Under rely Q c d) (htrans : ∀ a b c, rely a b → rely b c → rely a c)
    {d' : δ} (hd : rely d d') : Under rely Q c d' := by
  cases c with
  | done a => exact fun d'' hd' => h d'' (htrans _ _ _ hd hd')
  | fail => trivial
  | step f next => exact fun d'' hd' => h d'' (htrans _ _ _ hd hd')

theorem under_bind (hrefl : ∀ d, rely d d) {Q : β → δ → Prop} {k : α → Code δ β}
    (h : Under rely (fun a d' => Under rely Q (k a) d') c d) : Under rely Q (c >>= k) d := by
  induction c generalizing d with
  | done a => exact h d (hrefl d)
  | fail => trivial
  | step f next ih => exact fun d' hd => ih d' (h d' hd)

theorem under_read {f : δ → β} {k : β → Code δ α}
    (h : ∀ d', rely d d' → Under rely Q (k (f d')) d') : Under rely Q (.read f >>= k) d := h

/-- What nothing that acts meanwhile can change. -/
def Stable (rely : δ → δ → Prop) (J : δ → Prop) : Prop := ∀ d d', rely d d' → J d → J d'

namespace Stable
variable {J : δ → Prop} (hJ : Stable rely J) (hd : J d)
include hJ hd

theorem pure {a : α} (h : ∀ d', J d' → Q a d') : Under rely Q (Pure.pure a) d :=
  fun d' hd' => h d' (hJ d d' hd' hd)

theorem read {f : δ → β} {k : β → Code δ α} (h : ∀ d', J d' → Under rely Q (k (f d')) d') :
    Under rely Q (.read f >>= k) d :=
  fun d' hd' => h d' (hJ d d' hd' hd)

theorem write {f : δ → δ} {k : PUnit → Code δ α} (h : ∀ d', J d' → Under rely Q (k ⟨⟩) (f d')) :
    Under rely Q (.write f >>= k) d :=
  fun d' hd' => h d' (hJ d d' hd' hd)

/-- An access that comes last. -/
theorem last {f : δ → δ} {K : δ → Prop} (hK : Stable rely K) (h : ∀ d', J d' → K (f d')) :
    Under rely (fun _ d' => K d') (.write f) d :=
  fun d' hd' d'' hd'' => hK _ d'' hd'' (h d' (hJ d d' hd' hd))

theorem access {f : δ → δ} {g : δ → β} {k : β → Code δ α}
    (h : ∀ d', J d' → Under rely Q (k (g d')) (f d')) :
    Under rely Q (Interrupts.access f g >>= k) d :=
  fun d' hd' => h d' (hJ d d' hd' hd)

/-- A loop keeps what its body keeps. -/
theorem loop {body : Code δ Bool} (hrefl : ∀ d, rely d d)
    (hbody : ∀ d, J d → Under rely (fun _ d' => J d') body d) (fuel : Nat) :
    Under rely (fun _ d' => J d') (Interrupts.loop body fuel) d := by
  induction fuel generalizing d with
  | zero => trivial
  | succ fuel ih =>
      refine under_bind hrefl ((hbody d hd).mono fun go d' hd' => ?_)
      cases go with
      | true => exact ih hd'
      | false => exact fun d'' hd'' => hJ d' d'' hd'' hd'

end Stable

end Under

/-- What a poll says: go on polling at some place, do the call with interrupts off, or
return. -/
inductive Verdict (ω ρ : Type)
  | goto (op : ω)
  | enter
  | ret (r : ρ)

/-- What runs on the processor. A call may give up a poll that goes on; with interrupts
off it comes to a result, and to the place where it goes on, if it does. -/
structure Program (δ ω ρ ε : Type) where
  poll : ω → Code δ (Verdict ω ρ)
  body : ω → Code δ (ρ × Option ω)
  timeout : ω → Option ρ
  handler : Code δ PUnit
  hw : ε → δ → δ

/-- The foreground: outside any call, at a poll, or with interrupts off. -/
inductive Fore (δ ω ρ : Type)
  | idle
  | polling (op : ω) (c : Code δ (Verdict ω ρ))
  | masked (op : ω) (c : Code δ (ρ × Option ω))

def Fore.here : Fore δ ω ρ → Option ω
  | .idle => none
  | .polling op _ | .masked op _ => some op

/-- The calls so far, and the results so far with where they came from. -/
structure History (ω ρ : Type) where
  calls : List ω
  log : List (ω × ρ)

def History.call (h : History ω ρ) (op : ω) : History ω ρ := { h with calls := h.calls ++ [op] }

def History.ret (h : History ω ρ) (op : ω) (r : ρ) : History ω ρ :=
  { h with log := h.log ++ [(op, r)] }

structure Cpu (δ ω ρ : Type) where
  data : δ
  fore : Fore δ ω ρ
  isr : Option (Code δ PUnit)
  hist : History ω ρ

inductive Event (ω ε : Type)
  | call (op : ω)
  | next
  | giveUp
  | irq
  | handle
  | hw (e : ε)

namespace Cpu

def init (d : δ) : Cpu δ ω ρ := ⟨d, .idle, none, ⟨[], []⟩⟩

def ret (p : Program δ ω ρ ε) (s : Cpu δ ω ρ) (op : ω) (r : ρ) (next : Option ω) : Cpu δ ω ρ :=
  { s with
    fore := match next with
      | none => .idle
      | some op => .polling op (p.poll op)
    hist := s.hist.ret op r }

/-- The foreground takes a step. -/
def advance (p : Program δ ω ρ ε) (s : Cpu δ ω ρ) : Cpu δ ω ρ :=
  match s.fore with
  | .idle => s
  | .polling op (.step f next) => { s with data := f s.data, fore := .polling op (next s.data) }
  | .polling _ (.done (.goto op)) => { s with fore := .polling op (p.poll op) }
  | .polling op (.done .enter) => { s with fore := .masked op (p.body op) }
  | .polling op (.done (.ret r)) => s.ret p op r none
  | .polling _ .fail => s
  | .masked op (.step f next) => { s with data := f s.data, fore := .masked op (next s.data) }
  | .masked op (.done (r, next)) => s.ret p op r next
  | .masked _ .fail => s

def giveUp (p : Program δ ω ρ ε) (s : Cpu δ ω ρ) : Cpu δ ω ρ :=
  match s.fore with
  | .polling op (.done (.goto _)) =>
    match p.timeout op with
    | some r => s.ret p op r none
    | none => s
  | _ => s

/-- While the handler runs the foreground waits; it does not start with interrupts off. -/
def step (p : Program δ ω ρ ε) (s : Cpu δ ω ρ) : Event ω ε → Cpu δ ω ρ
  | .hw e => { s with data := p.hw e s.data }
  | .handle =>
    match s.isr with
    | some (.step f next) => { s with data := f s.data, isr := some (next s.data) }
    | some (.done _) => { s with isr := none }
    | _ => s
  | .irq =>
    match s.isr, s.fore with
    | none, .idle | none, .polling _ _ => { s with isr := some p.handler }
    | _, _ => s
  | .call op =>
    match s.isr, s.fore with
    | none, .idle => { s with fore := .polling op (p.poll op), hist := s.hist.call op }
    | _, _ => s
  | .next => if s.isr.isNone then s.advance p else s
  | .giveUp => if s.isr.isNone then s.giveUp p else s

end Cpu

/-- What the hardware may do between two accesses. -/
def Hw (p : Program δ ω ρ ε) : δ → δ → Prop := Relation.ReflTransGen fun d d' => ∃ e, p.hw e d = d'

section Keeps
variable (p : Program δ ω ρ ε) (callable : ω → Prop) (I : History ω ρ → Option ω → δ → Prop)
  (R : δ → δ → Prop)

/-- What the handler and the hardware may do between two accesses of a poll. -/
def Rely (h : History ω ρ) (op : ω) (d d' : δ) : Prop :=
  I h (some op) d → I h (some op) d' ∧ R d d'

/-- What a poll must have come to. -/
def After (h : History ω ρ) (op : ω) : Verdict ω ρ → δ → Prop
  | .goto op', d => I h (some op') d
  | .enter, d => Under (Hw p) (fun r d' => I (h.ret op r.1) r.2 d') (p.body op) d
  | .ret r, d => I (h.ret op r) none d

/-- The invariant `I` of history, place and data is kept; the handler and the hardware
do to the data no more than `R` says. -/
structure Keeps : Prop where
  refl : ∀ d, R d d
  trans : ∀ {d₁ d₂ d₃}, R d₁ d₂ → R d₂ d₃ → R d₁ d₃
  hw : ∀ {h o d} e, I h o d → I h o (p.hw e d) ∧ R d (p.hw e d)
  handler : ∀ {h o d}, I h o d → Under (Hw p) (fun _ d' => I h o d' ∧ R d d') p.handler d
  call : ∀ {h d} op, callable op → I h none d → I (h.call op) (some op) d
  reads : ∀ op, Reads (p.poll op)
  poll : ∀ {h d} op, I h (some op) d → Under (Rely I R h op) (After p I h op) (p.poll op) d
  timeout : ∀ {h d op r}, p.timeout op = some r → I h (some op) d → I (h.ret op r) none d

/-- The foreground with the data as it will be when the handler has ended. -/
def Ready (h : History ω ρ) : Fore δ ω ρ → δ → Prop
  | .idle, d => I h none d
  | .polling op c, d => I h (some op) d ∧ Reads c ∧ Under (Rely I R h op) (After p I h op) c d
  | .masked op c, d => (∃ d₀, I h (some op) d₀) ∧
      Under (Hw p) (fun r d' => I (h.ret op r.1) r.2 d') c d

/-- The invariant of runs. -/
def Inv (s : Cpu δ ω ρ) : Prop :=
  match s.isr with
  | none => Ready p I R s.hist s.fore s.data
  | some c => (∀ op c', s.fore ≠ .masked op c') ∧ ∃ d₀, Ready p I R s.hist s.fore d₀ ∧
      Under (Hw p) (fun _ d' => I s.hist s.fore.here d' ∧ R d₀ d') c s.data

end Keeps

section Runs
variable {p : Program δ ω ρ ε} {callable : ω → Prop} {I : History ω ρ → Option ω → δ → Prop}
  {R : δ → δ → Prop} {s : Cpu δ ω ρ}

theorem Rely.trans (hk : Keeps p callable I R) {h : History ω ρ} {op : ω} {d₁ d₂ d₃ : δ}
    (h₁ : Rely I R h op d₁ d₂) (h₂ : Rely I R h op d₂ d₃) : Rely I R h op d₁ d₃ := by
  intro hI
  obtain ⟨hI₂, hR₂⟩ := h₁ hI
  obtain ⟨hI₃, hR₃⟩ := h₂ hI₂
  exact ⟨hI₃, hk.trans hR₂ hR₃⟩

theorem Rely.refl (hk : Keeps p callable I R) (h : History ω ρ) (op : ω) (d : δ) :
    Rely I R h op d d :=
  fun hI => ⟨hI, hk.refl d⟩

theorem Hw.stable {J : δ → Prop} (hJ : ∀ d e, J d → J (p.hw e d)) : Stable (Hw p) J := by
  intro d d' hd h
  induction hd with
  | refl => exact h
  | tail _ hstep ih =>
      obtain ⟨e, rfl⟩ := hstep
      exact hJ _ e ih

theorem Hw.keeps (hk : Keeps p callable I R) {h : History ω ρ} {o : Option ω} {d d' : δ}
    (hd : Hw p d d') (hI : I h o d) : I h o d' ∧ R d d' :=
  Hw.stable (J := fun d' => I h o d' ∧ R d d')
    (fun _ e h => ⟨(hk.hw e h.1).1, hk.trans h.2 (hk.hw e h.1).2⟩) d d' hd ⟨hI, hk.refl d⟩

theorem Ready.invariant {h : History ω ρ} {fore : Fore δ ω ρ} {d : δ}
    (hready : Ready p I R h fore d) (hfore : ∀ op c, fore ≠ .masked op c) : I h fore.here d := by
  cases fore with
  | idle => exact hready
  | polling op c => exact hready.1
  | masked op c => exact absurd rfl (hfore op c)

theorem Ready.interfere (hk : Keeps p callable I R) {h : History ω ρ} {fore : Fore δ ω ρ} {d d' : δ}
    (hready : Ready p I R h fore d) (hfore : ∀ op c, fore ≠ .masked op c) (hI : I h fore.here d')
    (hR : R d d') : Ready p I R h fore d' := by
  cases fore with
  | idle => exact hI
  | polling op c =>
      obtain ⟨-, hreads, hc⟩ := hready
      have hrely : Rely I R h op d d' := fun _ => ⟨hI, hR⟩
      exact ⟨hI, hreads, hc.before (fun _ _ _ => Rely.trans hk) hrely⟩
  | masked op c => exact absurd rfl (hfore op c)

theorem Ready.hw (hk : Keeps p callable I R) {h : History ω ρ} {fore : Fore δ ω ρ} {d : δ}
    (hready : Ready p I R h fore d) (e : ε) : Ready p I R h fore (p.hw e d) := by
  cases fore with
  | idle => exact (hk.hw e hready).1
  | polling op c =>
      have hI := hk.hw e hready.1
      exact hready.interfere hk nofun hI.1 hI.2
  | masked op c =>
      exact ⟨hready.1, hready.2.before (fun _ _ _ => .trans) (.single ⟨e, rfl⟩)⟩

theorem Ready.poll (hk : Keeps p callable I R) {h : History ω ρ} {op : ω} {d : δ}
    (hI : I h (some op) d) : Ready p I R h (.polling op (p.poll op)) d :=
  ⟨hI, hk.reads op, hk.poll op hI⟩

theorem Inv.ret (hk : Keeps p callable I R) (hisr : s.isr = none) {op : ω} {r : ρ}
    {next : Option ω} (hI : I (s.hist.ret op r) next s.data) : Inv p I R (s.ret p op r next) := by
  simp only [Inv, Cpu.ret, hisr]
  cases next with
  | none => exact hI
  | some op' => exact Ready.poll hk hI

theorem Inv.advance (hk : Keeps p callable I R) (hisr : s.isr = none) (h : Inv p I R s) :
    Inv p I R (s.advance p) := by
  obtain ⟨d, fore, isr, hist⟩ := s
  subst hisr
  cases fore with
  | idle => exact h
  | polling op c =>
      obtain ⟨hI, hreads, hc⟩ := h
      cases c with
      | fail => exact ⟨hI, hreads, hc⟩
      | step f next =>
          obtain ⟨rfl, hnext⟩ := hreads
          exact ⟨hI, hnext d, hc d (Rely.refl hk hist op d)⟩
      | done v =>
          have hafter := hc d (Rely.refl hk hist op d)
          cases v with
          | goto op' => exact Ready.poll hk hafter
          | enter => exact ⟨⟨d, hI⟩, hafter⟩
          | ret r => exact Inv.ret hk rfl hafter
  | masked op c =>
      cases c with
      | fail => exact h
      | step f next => exact ⟨h.1, h.2 d .refl⟩
      | done r => exact Inv.ret hk rfl (h.2 d .refl)

theorem Inv.giveUp (hk : Keeps p callable I R) (hisr : s.isr = none) (h : Inv p I R s) :
    Inv p I R (s.giveUp p) := by
  simp only [Cpu.giveUp]
  split
  · next op _ hfore =>
    split
    · next r hr =>
      simp only [Inv, hisr, hfore] at h
      exact Inv.ret hk hisr (hk.timeout hr h.1)
    · exact h
  · exact h

theorem Inv.step (hk : Keeps p callable I R) (h : Inv p I R s) (i : Event ω ε)
    (hi : ∀ op, i = .call op → callable op) : Inv p I R (s.step p i) := by
  obtain ⟨d, fore, isr, hist⟩ := s
  cases isr with
  | none =>
      cases i with
      | hw e => exact Ready.hw hk h e
      | handle => exact h
      | next => exact Inv.advance hk rfl h
      | giveUp => exact Inv.giveUp hk rfl h
      | irq =>
          cases fore with
          | idle => exact ⟨nofun, d, h, hk.handler h⟩
          | polling op c => exact ⟨nofun, d, h, hk.handler h.1⟩
          | masked op c => exact h
      | call op =>
          cases fore with
          | idle => exact Ready.poll hk (hk.call op (hi op rfl) h)
          | polling op' c => exact h
          | masked op' c => exact h
  | some c =>
      obtain ⟨hfore, d₀, hready, hc⟩ := h
      cases i with
      | hw e => exact ⟨hfore, d₀, hready, hc.before (fun _ _ _ => .trans) (.single ⟨e, rfl⟩)⟩
      | handle =>
          cases c with
          | fail => exact ⟨hfore, d₀, hready, hc⟩
          | step f next => exact ⟨hfore, d₀, hready, hc d .refl⟩
          | done a => exact hready.interfere hk hfore (hc d .refl).1 (hc d .refl).2
      | next => exact ⟨hfore, d₀, hready, hc⟩
      | giveUp => exact ⟨hfore, d₀, hready, hc⟩
      | irq => cases fore <;> exact ⟨hfore, d₀, hready, hc⟩
      | call op => cases fore <;> exact ⟨hfore, d₀, hready, hc⟩

/-- The rule for runs. -/
theorem Keeps.reachable (hk : Keeps p callable I R) {d : δ} (hd : I ⟨[], []⟩ none d)
    (h : Reachable (Cpu.step p) (fun _ i => ∀ op, i = .call op → callable op) (Cpu.init d) s) :
    Inv p I R s := by
  have hinit : Inv p I R (Cpu.init d) := hd
  exact h.invariant hinit fun _ i hs hi => hs.step hk i hi

/-- Outside the handler and a part with interrupts off, the invariant holds of the data. -/
theorem Inv.outside (h : Inv p I R s) (hisr : s.isr = none) (hfore : ∀ op c, s.fore ≠ .masked op c) :
    I s.hist s.fore.here s.data := by
  simp only [Inv, hisr] at h
  exact h.invariant hfore

/-- What the invariant says about the history holds at all times. -/
theorem Inv.history (h : Inv p I R s) : ∃ d, I s.hist s.fore.here d := by
  obtain ⟨d, fore, isr, hist⟩ := s
  have hready : ∀ {d}, Ready p I R hist fore d → ∃ d, I hist fore.here d := by
    intro d hready
    cases fore with
    | idle => exact ⟨d, hready⟩
    | polling op c => exact ⟨d, hready.1⟩
    | masked op c => exact hready.1
  cases isr with
  | none => exact hready h
  | some c =>
      obtain ⟨-, d₀, h₀, -⟩ := h
      exact hready h₀

end Runs

end Plo.Interrupts
