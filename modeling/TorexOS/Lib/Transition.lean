import Mathlib.Data.List.Infix
import Mathlib.Logic.Basic

/-!
# TorexOS.Lib.Transition

Transition systems with guarded, executable steps.

* `System`: the initial states, when an operation may be requested (`legal`) and what it does
  (`step`; `none` when the run stops there).
* `Reach sys G s`: `s` is reached by a run from an initial state, all of whose steps are legal and
  meet the guard `G`.
* `Reach.invariant`: what holds initially and survives each such step holds of every state reached.
* `replay`: run a list of operations. `System.guard`: the same, with `G` tested before each step.
* `Along`: a condition holds before each operation of a run. `along_iff`: what such a run keeps, and
  any other loses for good, says whether it did.
* `prefixes_run`, `along_of_run`: the two directions for steps that may also stop.
* `Every`: the same for a step that is a function. `prefixes_iff`, `related_prefixes_iff`: what holds
  after every beginning of a run. `every_iff`: the reading of `along_iff`.
-/

namespace Transition

/-- Operations `ι` on states `σ`. -/
structure System (σ ι : Type) where
  init : σ → Prop
  legal : σ → ι → Prop
  step : σ → ι → Option σ

variable {σ ι : Type} {sys : System σ ι} {G : σ → ι → Prop} {s t : σ}

/-- The states reached by legal steps that meet `G`. -/
inductive Reach (sys : System σ ι) (G : σ → ι → Prop) : σ → Prop where
  | init {s : σ} : sys.init s → Reach sys G s
  | step {s t : σ} {i : ι} :
      Reach sys G s → sys.legal s i → G s i → sys.step s i = some t → Reach sys G t

theorem Reach.invariant {P : σ → Prop} (hinit : ∀ s, sys.init s → P s)
    (hstep : ∀ s t i, P s → sys.legal s i → G s i → sys.step s i = some t → P t)
    (h : Reach sys G s) : P s := by
  induction h with
  | init hs => exact hinit _ hs
  | step _ hl hg hs ih => exact hstep _ _ _ ih hl hg hs

theorem Reach.mono {G' : σ → ι → Prop} (h : Reach sys G s) (hG : ∀ s i, G s i → G' s i) :
    Reach sys G' s := by
  induction h with
  | init hs => exact .init hs
  | step _ hl hg hs ih => exact .step ih hl (hG _ _ hg) hs

/-- Run the operations from `s`; `none` when one is not legal or the run stops. -/
def replay (sys : System σ ι) [∀ s i, Decidable (sys.legal s i)] : σ → List ι → Option σ
  | s, [] => some s
  | s, i :: ops =>
    if sys.legal s i then
      match sys.step s i with
      | none => none
      | some t => replay sys t ops
    else none

theorem replay_append [∀ s i, Decidable (sys.legal s i)] {xs ys : List ι} {u : σ} :
    ∀ {s : σ}, replay sys s xs = some t → replay sys t ys = some u →
      replay sys s (xs ++ ys) = some u := by
  induction xs with
  | nil => intro s h hu; cases h; exact hu
  | cons i xs ih =>
    intro s h hu
    rw [replay] at h
    rw [List.cons_append, replay]
    split at h
    · rename_i hl
      rw [if_pos hl]
      split at h
      · cases h
      · exact ih h hu
    · cases h

theorem Reach.replay [∀ s i, Decidable (sys.legal s i)] {ops : List ι} :
    ∀ {s : σ}, Reach sys (fun _ _ => True) s → replay sys s ops = some t →
      Reach sys (fun _ _ => True) t := by
  induction ops with
  | nil => intro s h he; cases he; exact h
  | cons i ops ih =>
    intro s h he
    simp only [Transition.replay] at he
    split at he
    · rename_i hl
      split at he
      · cases he
      · rename_i u hu
        exact ih (.step h hl trivial hu) he
    · cases he

/-- The system that refuses a step that does not meet `G`. -/
def System.guard (sys : System σ ι) (G : σ → ι → Prop) : System σ ι :=
  { sys with legal := fun s i => sys.legal s i ∧ G s i }

instance [∀ s i, Decidable (sys.legal s i)] [∀ s i, Decidable (G s i)] (s : σ) (i : ι) :
    Decidable ((sys.guard G).legal s i) :=
  inferInstanceAs (Decidable (sys.legal s i ∧ G s i))

/-- Before each of the operations, run from `s`, the condition `C` holds of the state. -/
def Along (sys : System σ ι) (C : σ → ι → Prop) : σ → List ι → Prop
  | _, [] => True
  | s, i :: ops => C s i ∧ ∀ t, sys.step s i = some t → Along sys C t ops

section Along

variable [∀ s i, Decidable (sys.legal s i)] {C : σ → ι → Prop} {P B : σ → Prop} {ops : List ι}

theorem replay_cons {i : ι} (h : replay sys s (i :: ops) = some t) :
    sys.legal s i ∧ ∃ u, sys.step s i = some u ∧ replay sys u ops = some t := by
  rw [Transition.replay] at h
  split at h
  · rename_i hl
    split at h
    · cases h
    · rename_i u hu
      exact ⟨hl, u, hu, h⟩
  · cases h

theorem replay_keeps (hP : ∀ s t i, P s → sys.legal s i → sys.step s i = some t → P t) :
    ∀ {s : σ}, P s → replay sys s ops = some t → P t := by
  induction ops with
  | nil => intro s hs h; cases h; exact hs
  | cons i ops ih =>
    intro s hs h
    obtain ⟨hl, u, hu, h⟩ := replay_cons h
    exact ih (hP _ _ _ hs hl hu) h

theorem Reach.replay_guard [∀ s i, Decidable (G s i)] (h : Reach sys G s)
    (he : Transition.replay (sys.guard G) s ops = some t) : Reach sys G t := by
  refine replay_keeps (P := Reach sys G) ?_ h he
  rintro s t i hr ⟨hl, hg⟩ hs
  exact .step hr hl hg hs

/-- `P` is kept by the steps that meet `C` and turned into `B` by the others, and `B` stays: after a
run, `P` says that all its steps met `C`. -/
theorem along_iff (hP : ∀ s t i, P s → sys.legal s i → C s i → sys.step s i = some t → P t)
    (hPB : ∀ s t i, P s → sys.legal s i → ¬ C s i → sys.step s i = some t → B t)
    (hB : ∀ s t i, B s → sys.legal s i → sys.step s i = some t → B t) (hx : P t → B t → False) :
    ∀ {s : σ}, P s → replay sys s ops = some t → (P t ↔ Along sys C s ops) := by
  induction ops with
  | nil => intro s hs h; cases h; exact ⟨fun _ => trivial, fun _ => hs⟩
  | cons i ops ih =>
    intro s hs h
    obtain ⟨hl, u, hu, h⟩ := replay_cons h
    by_cases hc : C s i
    · rw [ih (hP _ _ _ hs hl hc hu) h]
      refine ⟨fun ha => ⟨hc, fun v hv => ?_⟩, fun ha => ha.2 u hu⟩
      cases hu.symm.trans hv
      exact ha
    · have hb := replay_keeps hB (hPB _ _ _ hs hl hc hu) h
      exact ⟨fun hp => (hx hp hb).elim, fun ha => absurd ha.1 hc⟩

end Along

section Stops

variable {C : σ → ι → Prop} {P B : σ → Prop} {ops : List ι}

/-- Steps that meet `C` do not stop and keep `P`: after every beginning of such a run, `P` holds. -/
theorem prefixes_run
    (hP : ∀ s i, P s → sys.legal s i → C s i → ∃ t, sys.step s i = some t ∧ P t) :
    ∀ {s : σ}, P s → Along sys sys.legal s ops → Along sys C s ops →
      ∀ pre, pre <+: ops → ∃ t, pre.foldlM sys.step s = some t ∧ P t := by
  induction ops with
  | nil =>
    intro s hs _ _ pre hpre
    rw [List.prefix_nil.mp hpre]
    exact ⟨s, rfl, hs⟩
  | cons i ops ih =>
    intro s hs hl hc pre hpre
    cases pre with
    | nil => exact ⟨s, rfl, hs⟩
    | cons j pre =>
      obtain ⟨rfl, hrest⟩ := List.cons_prefix_cons.mp hpre
      obtain ⟨u, hu, hpu⟩ := hP s j hs hl.1 hc.1
      obtain ⟨t, ht, hpt⟩ := ih hpu (hl.2 u hu) (hc.2 u hu) pre hrest
      refine ⟨t, ?_, hpt⟩
      rw [List.foldlM_cons, hu]
      exact ht

/-- A run with another step ends in `B`, if it does not stop. -/
theorem along_of_run
    (hP : ∀ s i, P s → sys.legal s i → C s i → ∃ t, sys.step s i = some t ∧ P t)
    (hPB : ∀ s t i, P s → sys.legal s i → ¬ C s i → sys.step s i = some t → B t)
    (hB : ∀ s t i, B s → sys.legal s i → sys.step s i = some t → B t) (hn : ¬ B t) :
    ∀ {s : σ}, P s → Along sys sys.legal s ops → ops.foldlM sys.step s = some t →
      Along sys C s ops := by
  have hbad : ∀ (ops : List ι) {s : σ}, B s → Along sys sys.legal s ops →
      ops.foldlM sys.step s = some t → B t := by
    intro ops
    induction ops with
    | nil => intro s hs _ he; cases he; exact hs
    | cons i ops ih =>
      intro s hs hl he
      rw [List.foldlM_cons] at he
      obtain ⟨u, hu, he⟩ := Option.bind_eq_some_iff.mp he
      exact ih (hB _ _ _ hs hl.1 hu) (hl.2 u hu) he
  induction ops with
  | nil => intro s _ _ _; exact trivial
  | cons i ops ih =>
    intro s hs hl he
    rw [List.foldlM_cons] at he
    obtain ⟨u, hu, he⟩ := Option.bind_eq_some_iff.mp he
    by_cases hc : C s i
    · refine ⟨hc, fun v hv => ?_⟩
      obtain ⟨w, hw, hpw⟩ := hP s i hs hl.1 hc
      cases hw.symm.trans hv
      cases hw.symm.trans hu
      exact ih hpw (hl.2 _ hw) he
    · exact absurd (hbad ops (hPB _ _ _ hs hl.1 hc hu) (hl.2 u hu) he) hn

end Stops

/-- Before each of the operations, run from `s` by the function `f`, the condition `C` holds. -/
def Every (f : σ → ι → σ) (C : σ → ι → Prop) : σ → List ι → Prop
  | _, [] => True
  | s, i :: ops => C s i ∧ Every f C (f s i) ops

section Every

variable {τ : Type} {f : σ → ι → σ} {g : τ → ι → τ} {C : σ → ι → Prop} {R : σ → τ → Prop}
variable {P B : σ → Prop} {ops : List ι}

theorem foldl_keeps (hB : ∀ s i, B s → B (f s i)) : ∀ {s : σ}, B s → B (ops.foldl f s) := by
  induction ops with
  | nil => intro s hs; exact hs
  | cons i ops ih => intro s hs; exact ih (hB s i hs)

/-- Two runs stay related after every beginning of the operations exactly when each step of the first
one meets the condition under which one step keeps them related. -/
theorem related_prefixes_iff (h : ∀ s t, R s t → ∀ i ∈ ops, (R (f s i) (g t i) ↔ C s i)) :
    ∀ {s : σ} {t : τ}, R s t →
      ((∀ pre, pre <+: ops → R (pre.foldl f s) (pre.foldl g t)) ↔ Every f C s ops) := by
  induction ops with
  | nil =>
    intro s t hs
    refine ⟨fun _ => trivial, fun _ pre hpre => ?_⟩
    rw [List.prefix_nil.mp hpre]
    exact hs
  | cons i ops ih =>
    intro s t hs
    have hi := h s t hs i List.mem_cons_self
    have ih := @ih (fun s t hs j hj => h s t hs j (List.mem_cons_of_mem _ hj)) (f s i) (g t i)
    constructor
    · intro hall
      have hc := hall [i] (List.prefix_iff_eq_append.mpr rfl)
      refine ⟨hi.mp hc, (ih hc).mp fun pre hpre => ?_⟩
      exact hall (i :: pre) ((List.prefix_cons_inj i).mpr hpre)
    · intro hev pre hpre
      cases pre with
      | nil => exact hs
      | cons j pre =>
        obtain ⟨rfl, hrest⟩ := List.cons_prefix_cons.mp hpre
        exact (ih (hi.mpr hev.1)).mpr hev.2 pre hrest

theorem prefixes_iff (h : ∀ s, P s → ∀ i ∈ ops, (P (f s i) ↔ C s i)) (hs : P s) :
    (∀ pre, pre <+: ops → P (pre.foldl f s)) ↔ Every f C s ops :=
  related_prefixes_iff (R := fun s (_ : Unit) => P s) (g := fun _ _ => ())
    (fun s _ hs i hi => h s hs i hi) (t := ()) hs

theorem every_iff (hP : ∀ s i, P s → C s i → P (f s i)) (hPB : ∀ s i, P s → ¬ C s i → B (f s i))
    (hB : ∀ s i, B s → B (f s i)) (hx : ∀ s, P s → B s → False) :
    ∀ {s : σ}, P s → (P (ops.foldl f s) ↔ Every f C s ops) := by
  induction ops with
  | nil => intro s hs; exact ⟨fun _ => trivial, fun _ => hs⟩
  | cons i ops ih =>
    intro s hs
    by_cases hc : C s i
    · exact (ih (hP s i hs hc)).trans ⟨fun h => ⟨hc, h⟩, fun h => h.2⟩
    · refine ⟨fun hp => ?_, fun h => absurd h.1 hc⟩
      exact (hx _ hp (foldl_keeps (s := f s i) hB (hPB s i hs hc))).elim

end Every

end Transition
