import Mathlib.Data.List.Basic
import Mathlib.Tactic.Common

set_option autoImplicit false

/-!
# Runs of a partial step function

`step s e = none` stands for a step whose behaviour is undefined. `Along` says that
every event of a run meets a condition in the state in which it arrives, so a
condition may look at the state before the step.
-/
namespace AetherClient.Runs

variable {σ ε : Type}

def run (step : σ → ε → Option σ) : σ → List ε → Option σ
  | s, [] => some s
  | s, e :: es => (step s e).bind fun s' => run step s' es

def Along (step : σ → ε → Option σ) (P : σ → ε → Prop) : σ → List ε → Prop
  | _, [] => True
  | s, e :: es => P s e ∧
      match step s e with
      | none => True
      | some s' => Along step P s' es

instance Along.decidable (step : σ → ε → Option σ) (P : σ → ε → Prop)
    [∀ s e, Decidable (P s e)] : (s : σ) → (es : List ε) → Decidable (Along step P s es)
  | _, [] => inferInstanceAs (Decidable True)
  | s, e :: es =>
    match h : step s e with
    | none => decidable_of_iff (P s e) (by simp [Along, h])
    | some s' =>
      have := Along.decidable step P s' es
      decidable_of_iff (P s e ∧ Along step P s' es) (by simp [Along, h])

section Rules
variable {step : σ → ε → Option σ} {P Q : σ → ε → Prop}

theorem run_append (s : σ) (es fs : List ε) :
    run step s (es ++ fs) = (run step s es).bind fun s' => run step s' fs := by
  induction es generalizing s with
  | nil => rfl
  | cons e es ih =>
    simp only [List.cons_append, run]
    cases step s e with
    | none => rfl
    | some s' => exact ih s'

theorem run_snoc {s s' : σ} {es : List ε} (e : ε) (h : run step s es = some s') :
    run step s (es ++ [e]) = step s' e := by
  rw [run_append, h]
  simp [run]

theorem run_observe {β : Type} {f : σ → β} {b : β} {s s' : σ} {es : List ε}
    (h : run step s es = some s') (hf : (run step s es).map f = some b) : f s' = b := by
  rw [h] at hf
  exact Option.some.inj hf

theorem Along.and {s : σ} {es : List ε} (hp : Along step P s es) (hq : Along step Q s es) :
    Along step (fun s e => P s e ∧ Q s e) s es := by
  induction es generalizing s with
  | nil => trivial
  | cons e es ih =>
    refine ⟨⟨hp.1, hq.1⟩, ?_⟩
    have hp' := hp.2
    have hq' := hq.2
    cases hs : step s e with
    | none => trivial
    | some s' =>
      rw [hs] at hp' hq'
      exact ih hp' hq'

theorem Along.mono {s : σ} {es : List ε} (ha : Along step P s es) (h : ∀ s e, P s e → Q s e) :
    Along step Q s es := by
  induction es generalizing s with
  | nil => trivial
  | cons e es ih =>
    refine ⟨h s e ha.1, ?_⟩
    have hrest := ha.2
    cases hs : step s e with
    | none => trivial
    | some s' =>
      rw [hs] at hrest
      exact ih hrest

theorem Along.of_forall {s : σ} {es : List ε} (h : ∀ e ∈ es, ∀ s, P s e) :
    Along step P s es := by
  induction es generalizing s with
  | nil => trivial
  | cons e es ih =>
    refine ⟨h e List.mem_cons_self s, ?_⟩
    cases step s e with
    | none => trivial
    | some s' => exact ih fun f hf => h f (List.mem_cons_of_mem _ hf)

theorem Along.of_isPrefix {s : σ} {es fs : List ε} (ha : Along step P s es) (hfs : fs <+: es) :
    Along step P s fs := by
  induction fs generalizing s es with
  | nil => trivial
  | cons f fs ih =>
    obtain ⟨rest, rfl⟩ := hfs
    obtain ⟨hp, hrest⟩ := ha
    refine ⟨hp, ?_⟩
    cases hs : step s f with
    | none => trivial
    | some s' =>
      rw [hs] at hrest
      exact ih hrest (List.prefix_append fs rest)

/-- The invariant rule: a step that meets the condition is defined and keeps `I`. -/
theorem run_invariant {I : σ → Prop}
    (hstep : ∀ s e, I s → P s e → ∃ s', step s e = some s' ∧ I s')
    {s : σ} {es : List ε} (hs : I s) (ha : Along step P s es) :
    ∃ s', run step s es = some s' ∧ I s' := by
  induction es generalizing s with
  | nil => exact ⟨s, rfl, hs⟩
  | cons e es ih =>
    obtain ⟨hp, hrest⟩ := ha
    obtain ⟨s', he, hi⟩ := hstep s e hs hp
    rw [he] at hrest
    obtain ⟨u, hu, hI⟩ := ih hi hrest
    exact ⟨u, by simp [run, he, hu], hI⟩

theorem run_preserves {I : σ → Prop}
    (hstep : ∀ s e s', I s → P s e → step s e = some s' → I s')
    {s s' : σ} {es : List ε} (hs : I s) (ha : Along step P s es)
    (hr : run step s es = some s') : I s' := by
  induction es generalizing s with
  | nil =>
    cases hr
    exact hs
  | cons e es ih =>
    obtain ⟨hp, hrest⟩ := ha
    obtain ⟨u, he, hu⟩ := Option.bind_eq_some_iff.1 hr
    rw [he] at hrest
    exact ih (hstep s e u hs hp he) hrest hu

theorem run_appends {β : Type} {f : σ → List β} {g : ε → Option β}
    (hstep : ∀ s e s', step s e = some s' → f s' = f s ++ (g e).toList)
    {s s' : σ} {es : List ε} (hr : run step s es = some s') : f s' = f s ++ es.filterMap g := by
  induction es generalizing s with
  | nil =>
    cases hr
    exact (List.append_nil _).symm
  | cons e es ih =>
    obtain ⟨u, he, hu⟩ := Option.bind_eq_some_iff.1 hr
    rw [ih hu, hstep s e u he, List.append_assoc]
    cases hg : g e <;> simp [hg]

/-- When, within a domain of events, the condition is exactly what a step from an invariant
state needs to be defined and to lead to a good state, a run meets it if and only if all its
prefixes lead to good states. -/
theorem along_iff_within {D : σ → ε → Prop} {I Good : σ → Prop} (hgood : ∀ s, I s → Good s)
    (hkeep : ∀ s e, I s → D s e → P s e → ∃ s', step s e = some s' ∧ I s')
    (hneed : ∀ s e s', I s → D s e → step s e = some s' → Good s' → P s e)
    {s : σ} {es : List ε} (hs : I s) (hd : Along step D s es) :
    Along step P s es ↔ ∀ fs, fs <+: es → ∃ s', run step s fs = some s' ∧ Good s' := by
  constructor
  · intro ha fs hfs
    obtain ⟨s', hr, hi⟩ := run_invariant (P := fun s e => D s e ∧ P s e)
      (fun s e hi h => hkeep s e hi h.1 h.2) hs ((hd.and ha).of_isPrefix hfs)
    exact ⟨s', hr, hgood s' hi⟩
  · intro h
    induction es generalizing s with
    | nil => trivial
    | cons e es ih =>
      obtain ⟨hde, hrest⟩ := hd
      obtain ⟨u, hu, hgu⟩ := h [e] (List.prefix_iff_eq_append.mpr rfl)
      have he : step s e = some u := by simpa [run] using hu
      have hp := hneed s e u hs hde he hgu
      obtain ⟨v, hv, hi⟩ := hkeep s e hs hde hp
      obtain rfl : u = v := Option.some.inj (he.symm.trans hv)
      rw [he] at hrest
      refine ⟨hp, ?_⟩
      rw [he]
      apply ih hi hrest
      intro fs hfs
      obtain ⟨s', hr, hgs⟩ := h (e :: fs) (List.cons_prefix_cons.mpr ⟨rfl, hfs⟩)
      exact ⟨s', by simpa [run, he] using hr, hgs⟩

theorem along_iff {I Good : σ → Prop} (hgood : ∀ s, I s → Good s)
    (hkeep : ∀ s e, I s → P s e → ∃ s', step s e = some s' ∧ I s')
    (hneed : ∀ s e s', I s → step s e = some s' → Good s' → P s e)
    {s : σ} {es : List ε} (hs : I s) :
    Along step P s es ↔ ∀ fs, fs <+: es → ∃ s', run step s fs = some s' ∧ Good s' :=
  along_iff_within (D := fun _ _ => True) hgood (fun s e hi _ => hkeep s e hi)
    (fun s e s' hi _ => hneed s e s' hi) hs (Along.of_forall fun _ _ _ => trivial)

end Rules
end AetherClient.Runs
