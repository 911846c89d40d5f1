import Mathlib.Data.List.Basic
import Mathlib.Tactic.Common

set_option autoImplicit false

namespace AetherClient

structure MaxVersion where
  value : ℕ
  value_lt : value < 255

def MaxVersion.standard : MaxVersion := ⟨24, by decide⟩

/-- The versions that a class has a `Load` for (`HasVersionedLoad`), or a `Save`
(`HasVersionedSave`). Beyond the maximum there is no type `Version<V>`. -/
structure VersionTrait (maxVersion : MaxVersion) where
  has : ℕ → Bool
  le_max : ∀ v, has v = true → v ≤ maxVersion.value

def reverseSequence (sequence : List ℕ) : List ℕ :=
  (List.range sequence.length).map fun i => sequence.getD (sequence.length - i - 1) 0

def makeRangeSequence (first last : ℕ) : List ℕ :=
  if first ≤ last then (List.range (last - first + 1)).map (· + first)
  else reverseSequence ((List.range (first - last + 1)).map (· + last))

theorem reverseSequence_eq (sequence : List ℕ) : reverseSequence sequence = sequence.reverse := by
  apply List.ext_getElem
  · simp [reverseSequence]
  · intro i hi _
    have hlen : i < sequence.length := by simpa [reverseSequence] using hi
    have hback : sequence.length - 1 - i < sequence.length := by omega
    have hsub : sequence.length - i - 1 = sequence.length - 1 - i := by omega
    simp [reverseSequence, hsub, List.getElem?_eq_getElem hback]

theorem makeRangeSequence_of_le {first last : ℕ} (h : first ≤ last) :
    makeRangeSequence first last = List.range' first (last - first + 1) := by
  rw [makeRangeSequence, if_pos h, List.range'_eq_map_range]
  apply List.map_congr_left
  intro i _
  exact Nat.add_comm i first

theorem makeRangeSequence_reverse {first last : ℕ} (h : first ≤ last) :
    makeRangeSequence last first = (makeRangeSequence first last).reverse := by
  rcases Nat.eq_or_lt_of_le h with rfl | hlt
  · simp [makeRangeSequence]
  · rw [makeRangeSequence, if_neg (by omega), reverseSequence_eq, makeRangeSequence, if_pos h]

theorem mem_makeRangeSequence {first last v : ℕ} (h : first ≤ last) :
    v ∈ makeRangeSequence first last ↔ first ≤ v ∧ v ≤ last := by
  rw [makeRangeSequence_of_le h, List.mem_range'_1]
  omega

namespace VersionTrait

section Iterate
variable {maxVersion : MaxVersion} (trait : VersionTrait maxVersion) {σ : Type}

def scan (wanted : Bool) : List Bool → ℕ → ℕ
  | [], i => i
  | x :: rest, i => if x = wanted then i else scan wanted rest (i + 1)

def calcVersionBounds (arr : List Bool) : ℕ × ℕ :=
  let i := scan true arr 0
  let j := scan false (arr.drop i) i
  -- the casts of `i` and `j - 1` to eight bits
  (i % 256, (j + 255) % 256)

def versionBounds : ℕ × ℕ :=
  calcVersionBounds ((List.range (maxVersion.value + 1)).map trait.has)

def iterateVersionsImplApply (func : ℕ → σ → σ) (t : σ) (v : ℕ) : σ :=
  if trait.has v then func v t else t

def iterateVersions (versionMin versionMax : ℕ) (func : ℕ → σ → σ) (t : σ) : σ :=
  (makeRangeSequence versionMin versionMax).foldl (trait.iterateVersionsImplApply func) t

def visitLoad (func : ℕ → σ → σ) (t : σ) : σ :=
  trait.iterateVersions trait.versionBounds.1 trait.versionBounds.2 func t

def visitSave (func : ℕ → σ → σ) (t : σ) : σ :=
  trait.iterateVersions trait.versionBounds.2 trait.versionBounds.1 func t

def loaded : List ℕ := trait.visitLoad (fun v log => log ++ [v]) []

def saved : List ℕ := trait.visitSave (fun v log => log ++ [v]) []

theorem iterateVersions_eq (versionMin versionMax : ℕ) (func : ℕ → σ → σ) (t : σ) :
    trait.iterateVersions versionMin versionMax func t =
      ((makeRangeSequence versionMin versionMax).filter trait.has).foldl (fun t v => func v t) t :=
  List.foldl_filter.symm

theorem foldl_record (log versions : List ℕ) :
    versions.foldl (fun log v => log ++ [v]) log = log ++ versions := by
  induction versions generalizing log with
  | nil => simp
  | cons v versions ih => rw [List.foldl_cons, ih, List.append_assoc, List.singleton_append]

theorem loaded_eq : trait.loaded =
    (makeRangeSequence trait.versionBounds.1 trait.versionBounds.2).filter trait.has := by
  rw [loaded, visitLoad, iterateVersions_eq, foldl_record, List.nil_append]

theorem saved_eq : trait.saved =
    (makeRangeSequence trait.versionBounds.2 trait.versionBounds.1).filter trait.has := by
  rw [saved, visitSave, iterateVersions_eq, foldl_record, List.nil_append]

end Iterate

section Bounds
variable {maxVersion : MaxVersion} (trait : VersionTrait maxVersion)

theorem scan_spec (has : ℕ → Bool) (wanted : Bool) (n i : ℕ) :
    i ≤ scan wanted ((List.range' i n).map has) i ∧
      scan wanted ((List.range' i n).map has) i ≤ i + n ∧
      (∀ v, i ≤ v → v < scan wanted ((List.range' i n).map has) i → has v ≠ wanted) ∧
      (scan wanted ((List.range' i n).map has) i < i + n →
        has (scan wanted ((List.range' i n).map has) i) = wanted) := by
  induction n generalizing i with
  | zero =>
    refine ⟨Nat.le_refl i, Nat.le_refl i, ?_, ?_⟩
    · intro v hv hlt
      exact absurd hlt (Nat.not_lt.2 hv)
    · intro hlt
      exact absurd hlt (Nat.lt_irrefl i)
  | succ n ih =>
    obtain ⟨hlow, hhigh, hpassed, hstop⟩ := ih (i + 1)
    rw [List.range'_succ, List.map_cons, scan]
    split_ifs with hi
    · refine ⟨Nat.le_refl i, by omega, ?_, fun _ => hi⟩
      intro v hv hlt
      exact absurd hlt (Nat.not_lt.2 hv)
    · refine ⟨by omega, by omega, ?_, fun hlt => hstop (by omega)⟩
      intro v hv hlt
      rcases Nat.eq_or_lt_of_le hv with rfl | hlt'
      · exact hi
      · exact hpassed v hlt' hlt

/-- The bounds are those of the first versions that stand together. -/
structure FirstRun (low high : ℕ) : Prop where
  le : low ≤ high
  before : ∀ v, v < low → trait.has v = false
  within : ∀ v, low ≤ v → v ≤ high → trait.has v = true
  after : trait.has (high + 1) = false

theorem has_false_of_gt {v : ℕ} (h : maxVersion.value < v) : trait.has v = false := by
  rw [Bool.eq_false_iff]
  intro hv
  have := trait.le_max v hv
  omega

theorem versionBounds_spec {u : ℕ} (hu : trait.has u = true) :
    trait.FirstRun trait.versionBounds.1 trait.versionBounds.2 := by
  have hmax := trait.le_max u hu
  have hfits := maxVersion.value_lt
  obtain ⟨-, hi, hbefore, hfirst⟩ := scan_spec trait.has true (maxVersion.value + 1) 0
  unfold versionBounds calcVersionBounds
  rw [List.range_eq_range']
  generalize scan true ((List.range' 0 (maxVersion.value + 1)).map trait.has) 0 = i at *
  have hiu : i ≤ u := by
    by_contra hlt
    exact hbefore u (Nat.zero_le u) (by omega) hu
  have hdrop : ((List.range' 0 (maxVersion.value + 1)).map trait.has).drop i =
      (List.range' i (maxVersion.value + 1 - i)).map trait.has := by
    rw [← List.map_drop, List.drop_range']
    simp
  obtain ⟨hij, hj, hwithin, hlast⟩ := scan_spec trait.has false (maxVersion.value + 1 - i) i
  dsimp only
  rw [hdrop]
  generalize scan false ((List.range' i (maxVersion.value + 1 - i)).map trait.has) i = j at *
  have hafter : trait.has j = false := by
    rcases Nat.lt_or_ge j (maxVersion.value + 1) with hlt | hge
    · exact hlast (by omega)
    · exact trait.has_false_of_gt (by omega)
  have hne : i ≠ j := by
    rintro rfl
    rw [hfirst (by omega)] at hafter
    cases hafter
  have hlow : i % 256 = i := Nat.mod_eq_of_lt (by omega)
  have hhigh : (j + 255) % 256 = j - 1 := by omega
  rw [hlow, hhigh]
  refine ⟨by omega, ?_, ?_, ?_⟩
  · intro v hv
    simpa using hbefore v (Nat.zero_le v) hv
  · intro v hlv hvh
    simpa using hwithin v hlv (by omega)
  · rw [Nat.sub_add_cancel (by omega)]
    exact hafter

end Bounds

section Visits
variable {maxVersion : MaxVersion} (trait : VersionTrait maxVersion)

structure LoadsAll : Prop where
  increasing : trait.loaded.Pairwise (· < ·)
  mem : ∀ v, v ∈ trait.loaded ↔ trait.has v = true

structure SavesAll : Prop where
  decreasing : trait.saved.Pairwise (· > ·)
  mem : ∀ v, v ∈ trait.saved ↔ trait.has v = true

/-- No version between two others was retired. -/
def Contiguous : Prop :=
  ∀ a b c, trait.has a = true → trait.has c = true → a ≤ b → b ≤ c → trait.has b = true

theorem filter_of_none (hnone : ¬∃ v, trait.has v = true) (versions : List ℕ) :
    versions.filter trait.has = [] := by
  rw [List.filter_eq_nil_iff]
  exact fun v _ hv => hnone ⟨v, hv⟩

theorem loaded_of_firstRun {u : ℕ} (hu : trait.has u = true) :
    trait.loaded = makeRangeSequence trait.versionBounds.1 trait.versionBounds.2 := by
  have hrun := trait.versionBounds_spec hu
  rw [loaded_eq, List.filter_eq_self]
  intro v hv
  obtain ⟨hlow, hhigh⟩ := (mem_makeRangeSequence hrun.le).1 hv
  exact hrun.within v hlow hhigh

theorem loaded_increasing : trait.loaded.Pairwise (· < ·) := by
  by_cases hany : ∃ u, trait.has u = true
  · obtain ⟨u, hu⟩ := hany
    rw [trait.loaded_of_firstRun hu, makeRangeSequence_of_le (trait.versionBounds_spec hu).le]
    exact List.pairwise_lt_range'
  · rw [loaded_eq, trait.filter_of_none hany]
    exact List.Pairwise.nil

theorem saved_eq_reverse : trait.saved = trait.loaded.reverse := by
  by_cases hany : ∃ u, trait.has u = true
  · obtain ⟨u, hu⟩ := hany
    rw [saved_eq, loaded_eq, makeRangeSequence_reverse (trait.versionBounds_spec hu).le,
      List.filter_reverse]
  · rw [saved_eq, loaded_eq, trait.filter_of_none hany, trait.filter_of_none hany,
      List.reverse_nil]

theorem mem_loaded_iff_contiguous :
    (∀ v, v ∈ trait.loaded ↔ trait.has v = true) ↔ trait.Contiguous := by
  constructor
  · intro h a b c ha hc hab hbc
    have hrun := trait.versionBounds_spec ha
    have hloaded := trait.loaded_of_firstRun ha
    rw [← h, hloaded, mem_makeRangeSequence hrun.le] at ha hc
    exact hrun.within b (by omega) (by omega)
  · intro h v
    constructor
    · intro hv
      rw [loaded_eq, List.mem_filter] at hv
      exact hv.2
    · intro hv
      have hrun := trait.versionBounds_spec hv
      rw [trait.loaded_of_firstRun hv, mem_makeRangeSequence hrun.le]
      have hlow := hrun.within _ (Nat.le_refl _) hrun.le
      have hle := hrun.le
      refine ⟨?_, ?_⟩ <;> by_contra hlt
      · rw [hrun.before v (by omega)] at hv
        cases hv
      · -- the version after the last visited one lies between two that the class has
        have hgap := h _ (trait.versionBounds.2 + 1) v hlow hv (by omega) (by omega)
        rw [hrun.after] at hgap
        cases hgap

/-- All versions are visited exactly if no version between two others was retired. -/
theorem visits_all_iff :
    (trait.LoadsAll ↔ trait.Contiguous) ∧ (trait.SavesAll ↔ trait.Contiguous) := by
  have hmem := trait.mem_loaded_iff_contiguous
  constructor
  · exact ⟨fun h => hmem.1 h.mem, fun h => ⟨trait.loaded_increasing, hmem.2 h⟩⟩
  · have hsaved : ∀ v, v ∈ trait.saved ↔ v ∈ trait.loaded := by
      intro v
      rw [saved_eq_reverse, List.mem_reverse]
    constructor
    · intro h
      exact hmem.1 fun v => (hsaved v).symm.trans (h.mem v)
    · intro h
      refine ⟨?_, fun v => (hsaved v).trans (hmem.2 h v)⟩
      rw [saved_eq_reverse, List.pairwise_reverse]
      exact trait.loaded_increasing

end Visits

def retired : VersionTrait .standard where
  has v := v == 0 || v == 2
  le_max := by
    intro v hv
    have hcases : v = 0 ∨ v = 2 := by simpa using hv
    change v ≤ 24
    omega

theorem retired_not_all_visited :
    retired.has 0 = true ∧ ¬ retired.LoadsAll ∧ ¬ retired.SavesAll := by
  have hloaded : retired.loaded = [0] := by decide
  have hsaved : retired.saved = [0] := by decide
  refine ⟨rfl, ?_, ?_⟩
  · intro h
    have htwo := (h.mem 2).2 rfl
    rw [hloaded] at htwo
    exact absurd htwo (by decide)
  · intro h
    have htwo := (h.mem 2).2 rfl
    rw [hsaved] at htwo
    exact absurd htwo (by decide)

end VersionTrait
end AetherClient
