import Mathlib.Data.List.TakeWhile
import AetherClient.EventEmitter

set_option autoImplicit false

namespace AetherClient

section Lists
variable {p q : ℕ → Bool} {l t : List ℕ} {h : ℕ}

theorem filter_eq_of_dropWhile (hd : l.dropWhile (fun k => !p k) = t) (hq : ∀ k, q k → p k) :
    l.filter q = t.filter q := by
  have hskip : (l.takeWhile fun k => !p k).filter q = [] := by
    rw [List.filter_eq_nil_iff]
    intro k hk hqk
    have hp := List.mem_takeWhile_imp hk
    rw [hq k hqk] at hp
    cases hp
  conv_lhs => rw [← List.takeWhile_append_dropWhile (p := fun k => !p k) (l := l)]
  rw [List.filter_append, hskip, hd, List.nil_append]

theorem find_of_dropWhile (hd : l.dropWhile (fun k => !p k) = h :: t) :
    p h ∧ l.find? p = some h := by
  induction l with
  | nil => cases hd
  | cons k l ih =>
    cases hk : p k with
    | true =>
      rw [List.dropWhile_cons_of_neg (by simp [hk])] at hd
      cases hd
      exact ⟨hk, List.find?_cons_of_pos hk⟩
    | false =>
      rw [List.dropWhile_cons_of_pos (by simp [hk])] at hd
      rw [List.find?_cons_of_neg (by simp [hk])]
      exact ih hd

theorem dropWhile_of_filter (hf : l.filter p = h :: t) :
    ∃ r, l.dropWhile (fun k => !p k) = h :: r ∧ r.filter p = t := by
  have hrest := filter_eq_of_dropWhile (p := p) (l := l) rfl fun _ hk => hk
  cases hd : l.dropWhile fun k => !p k with
  | nil =>
    rw [hd, hf] at hrest
    cases hrest
  | cons k r =>
    obtain ⟨hk, -⟩ := find_of_dropWhile hd
    rw [hd, hf, List.filter_cons_of_pos hk] at hrest
    cases hrest
    exact ⟨r, rfl, rfl⟩

theorem find_of_dropWhile_nil (hd : l.dropWhile (fun k => !p k) = []) : l.find? p = none := by
  rw [List.find?_eq_none]
  intro k hk hp
  have hskip := List.dropWhile_eq_nil_iff.mp hd k hk
  simp [hp] at hskip

theorem filter_congr_of_subset {u : List ℕ} (he : l.filter p = u.filter p) (hq : ∀ k, q k → p k) :
    l.filter q = u.filter q := by
  have hboth : ∀ v : List ℕ, v.filter q = (v.filter p).filter q := by
    intro v
    rw [List.filter_filter]
    apply List.filter_congr
    intro k _
    cases hk : q k with
    | true => simp [hq k hk]
    | false => rfl
  rw [hboth l, hboth u, he]

end Lists
namespace EventRun
open Runs
variable {α : Type} {moved : α → α} {w : EventRun α} {h : ℕ}

/-- The two lists of a running `Emit` agree on the handlers in `subscribed`. -/
structure SameEmission (subscribed : List ℕ) (f : Emission α) (g : ExpectedEmission α) : Prop where
  running : f.running = g.running
  args : f.passed = g.args
  rest : f.rest.filter (fun k => k ∈ subscribed) = g.rest.filter fun k => k ∈ subscribed

def wanted (w : EventEmitter α) (h : ℕ) : Bool := w.isAlive h && !w.isStale h

structure Matches (w : EventRun α) : Prop where
  known : ∀ h, h ∈ w.expected.known ↔ h ∈ w.emitter.handlers
  subscribed : ∀ h, h ∈ w.expected.subscribed ↔ wanted w.emitter h
  once : ∀ h x, w.emitter.handlers.lookup h = some x → (x.once ↔ h ∈ w.expected.once)
  once_known : ∀ h ∈ w.expected.once, h ∈ w.emitter.handlers
  order : w.emitter.subscriptions.filter (fun k => k ∈ w.expected.subscribed) =
    w.expected.subscribed
  listed : ∀ h ∈ w.emitter.subscriptions, h ∈ w.emitter.handlers
  emissions : List.Forall₂ (SameEmission w.expected.subscribed) w.emitter.emissions
    w.expected.emissions
  lists : ∀ f ∈ w.emitter.emissions, ∀ h ∈ f.running :: f.rest, h ∈ w.emitter.handlers
  expectedLists : ∀ g ∈ w.expected.emissions, ∀ h ∈ g.rest, h ∈ w.emitter.handlers
  log : w.emitter.log = w.expected.log
  unknown : ∀ h, h ∉ w.emitter.handlers → calls w.expected.log h = 0
  called : ∀ h ∈ w.expected.once,
    calls w.expected.log h ≤ 1 ∧ (h ∈ w.expected.subscribed → calls w.expected.log h = 0)

theorem wanted_iff {c : EventEmitter α} {x : EventHandler} (hx : c.handlers.lookup h = some x) :
    wanted c h ↔ x.alive ∧ x.owned ∧ (c.isRunning h → x.once = false) := by
  unfold wanted EventEmitter.isAlive EventEmitter.isStale EventEmitter.lock
  rw [hx]
  obtain ⟨alive, once, owned⟩ := x
  cases alive <;> cases owned <;> cases once <;> cases c.isRunning h <;> simp

theorem wanted_of_lookup_none {c : EventEmitter α} (hx : c.handlers.lookup h = none) :
    wanted c h = false := by
  simp [wanted, EventEmitter.isAlive, EventEmitter.lock, hx]

theorem calls_append (log : List (Observed α)) (o : Observed α) (h : ℕ) :
    calls (log ++ [o]) h = calls log h + calls [o] h := List.countP_append

theorem SameEmission.mono {S T : List ℕ} {f : Emission α} {g : ExpectedEmission α}
    (hs : SameEmission S f g) (hT : T ⊆ S) : SameEmission T f g :=
  ⟨hs.running, hs.args, filter_congr_of_subset hs.rest fun k hk => by simpa using hT (by simpa using hk)⟩

theorem Matches.mem_handlers (hw : Matches w) (hs : h ∈ w.expected.subscribed) :
    h ∈ w.emitter.handlers := by
  by_contra hn
  have hfalse := wanted_of_lookup_none (AList.lookup_eq_none.mpr hn)
  rw [(hw.subscribed h).mp hs] at hfalse
  cases hfalse

theorem isAlive_of_wanted {c : EventEmitter α} (hw : wanted c h) : c.isAlive h := by
  rw [wanted, Bool.and_eq_true] at hw
  exact hw.1

theorem Matches.isAlive (hw : Matches w) (hs : decide (h ∈ w.expected.subscribed)) :
    w.emitter.isAlive h :=
  isAlive_of_wanted ((hw.subscribed h).mp (of_decide_eq_true hs))

theorem filter_remove {S l : List ℕ} (ho : l.filter (fun k => k ∈ S) = S) (h : ℕ) :
    l.filter (fun k => k ∈ S.filter fun j => j ≠ h) = S.filter fun j => j ≠ h := by
  have hsub : ∀ k, decide (k ∈ S.filter fun j => j ≠ h) → decide (k ∈ S) := by
    intro k hk
    exact decide_eq_true (List.mem_of_mem_filter (of_decide_eq_true hk))
  have hself : S.filter (fun k => k ∈ S) = S := by
    rw [List.filter_eq_self]
    exact fun k hk => decide_eq_true hk
  rw [filter_congr_of_subset (ho.trans hself.symm) hsub]
  apply List.filter_congr
  intro k hk
  simp [hk]

theorem Matches.shrink {T : List ℕ} (hw : Matches w) (hT : T ⊆ w.expected.subscribed) :
    List.Forall₂ (SameEmission T) w.emitter.emissions w.expected.emissions :=
  hw.emissions.imp fun _ _ hs => hs.mono hT

theorem Matches.finish (hw : Matches w) :
    Matches ⟨{ w.emitter with
        subscriptions := w.emitter.subscriptions.filter w.emitter.isAlive
        log := w.emitter.log ++ [.done] },
      { w.expected with log := w.expected.log ++ [.done] }⟩ := by
  constructor
  case known => exact hw.known
  case subscribed => exact hw.subscribed
  case once => exact hw.once
  case once_known => exact hw.once_known
  case order =>
    refine Eq.trans ?_ hw.order
    rw [List.filter_filter]
    apply List.filter_congr
    intro k _
    by_cases hk : k ∈ w.expected.subscribed
    · simp [hk, hw.isAlive (decide_eq_true hk)]
    · simp [hk]
  case listed => exact fun h hh => hw.listed h (List.mem_of_mem_filter hh)
  case emissions => exact hw.emissions
  case lists => exact hw.lists
  case expectedLists => exact hw.expectedLists
  case log => exact congrArg (· ++ [Observed.done]) hw.log
  case unknown =>
    intro h hh
    rw [calls_append, hw.unknown h hh]
    rfl
  case called =>
    intro h hh
    rw [calls_append]
    exact hw.called h hh

theorem Matches.wanted_call (hw : Matches w) (hwanted : wanted w.emitter h) (f : Emission α)
    (hf : f.running = h) (log : List (Observed α)) (k : ℕ) :
    wanted { w.emitter with emissions := f :: w.emitter.emissions, log := log } k ↔
      k ∈ w.expected.subscribed ∧ (k = h → h ∉ w.expected.once) := by
  rw [hw.subscribed k]
  by_cases hk : k = h
  · subst hk
    obtain ⟨x, hx⟩ : ∃ x, w.emitter.handlers.lookup k = some x :=
      Option.isSome_iff_exists.mp
        (AList.lookup_isSome.mpr (hw.mem_handlers ((hw.subscribed k).mpr hwanted)))
    have hrun : EventEmitter.isRunning
        { w.emitter with emissions := f :: w.emitter.emissions, log := log } k := by
      simp [EventEmitter.isRunning, hf]
    refine (wanted_iff (by exact hx)).trans ?_
    have hparts := (wanted_iff hx).mp hwanted
    simp only [hwanted, hrun, ← hw.once k x hx, hparts.1, hparts.2.1, true_and, forall_const]
    simp
  · have hsame : wanted { w.emitter with emissions := f :: w.emitter.emissions, log := log } k =
        wanted w.emitter k := by
      simp [wanted, EventEmitter.isAlive, EventEmitter.lock, EventEmitter.isStale,
        EventEmitter.isRunning, hf, Ne.symm hk]
    simp [hsame, hk]

theorem Matches.call (hw : Matches w) (hwanted : wanted w.emitter h) (args left : α) {t t' : List ℕ}
    (ht : t.filter (fun k => k ∈ w.expected.subscribed) = t'.filter fun k => k ∈ w.expected.subscribed)
    (hmem : ∀ k ∈ h :: t, k ∈ w.emitter.handlers) (hmem' : ∀ k ∈ t', k ∈ w.emitter.handlers) :
    Matches ⟨{ w.emitter with
        emissions := ⟨args, left, t, h⟩ :: w.emitter.emissions
        log := w.emitter.log ++ [.call h args] },
      { w.expected with
        subscribed := if h ∈ w.expected.once then w.expected.remove h else w.expected.subscribed
        emissions := ⟨args, t', h⟩ :: w.expected.emissions
        log := w.expected.log ++ [.call h args] }⟩ := by
  have hS : h ∈ w.expected.subscribed := (hw.subscribed h).mpr hwanted
  generalize hT : (if h ∈ w.expected.once then w.expected.remove h else w.expected.subscribed) = T
  have hT' : ∀ k, k ∈ T ↔ k ∈ w.expected.subscribed ∧ (k = h → h ∉ w.expected.once) := by
    intro k
    rw [← hT]
    split
    · next ho => simp [ExpectedEvent.remove, ho]
    · next ho => simp [ho]
  have hsub : T ⊆ w.expected.subscribed := fun k hk => ((hT' k).mp hk).1
  constructor
  case known => exact hw.known
  case subscribed => exact fun k => (hT' k).trans (hw.wanted_call hwanted _ rfl _ k).symm
  case once => exact hw.once
  case once_known => exact hw.once_known
  case order =>
    rw [← hT]
    split
    · exact filter_remove hw.order h
    · exact hw.order
  case listed => exact hw.listed
  case emissions =>
    refine List.Forall₂.cons ⟨rfl, rfl, ?_⟩ (hw.shrink hsub)
    apply filter_congr_of_subset ht
    intro k hk
    exact decide_eq_true (hsub (of_decide_eq_true hk))
  case lists =>
    intro f hf
    obtain rfl | hf := List.mem_cons.mp hf
    · exact hmem
    · exact hw.lists f hf
  case expectedLists =>
    intro g hg
    obtain rfl | hg := List.mem_cons.mp hg
    · exact hmem'
    · exact hw.expectedLists g hg
  case log => exact congrArg (· ++ [Observed.call h args]) hw.log
  case unknown =>
    intro k hk
    have hne : h ≠ k := by
      rintro rfl
      exact hk (hw.mem_handlers hS)
    rw [calls_append, hw.unknown k hk]
    simp [calls, hne]
  case called =>
    intro k hk
    rw [calls_append]
    have hcalled := hw.called k hk
    by_cases he : h = k
    · subst he
      have hzero := hcalled.2 hS
      have hone : calls [Observed.call h args] h = 1 := by simp [calls]
      refine ⟨by omega, ?_⟩
      intro hmemT
      exact absurd hk (((hT' h).mp hmemT).2 rfl)
    · have hzero : calls [Observed.call h args] k = 0 := by simp [calls, he]
      refine ⟨by omega, ?_⟩
      intro hmemT
      rw [hzero]
      exact hcalled.2 (hsub hmemT)

theorem Matches.next (hw : Matches w) {passed args : α} {rest rest' : List ℕ}
    (hrest : rest.filter (fun k => k ∈ w.expected.subscribed) =
      rest'.filter fun k => k ∈ w.expected.subscribed)
    (hl : ∀ h ∈ rest, h ∈ w.emitter.handlers) (hl' : ∀ h ∈ rest', h ∈ w.emitter.handlers)
    (hfresh : w.emitter.Fresh rest)
    (hargs : rest.find? w.emitter.isAlive ≠ none → args = passed) :
    Matches ⟨w.emitter.invokeNext moved passed args rest, w.expected.callNext passed rest'⟩ := by
  cases hd : rest.dropWhile fun k => !w.emitter.isAlive k with
  | nil =>
    have hnil := filter_eq_of_dropWhile hd fun k hk => hw.isAlive hk
    rw [hrest, List.filter_nil] at hnil
    have hd' : rest'.dropWhile (fun k => k ∉ w.expected.subscribed) = [] := by
      rw [List.dropWhile_eq_nil_iff]
      intro k hk
      simpa using List.filter_eq_nil_iff.mp hnil k hk
    simp only [EventEmitter.invokeNext, hd, ExpectedEvent.callNext, hd']
    exact hw.finish
  | cons h t =>
    obtain ⟨halive, hfind⟩ := find_of_dropWhile hd
    have hwanted : wanted w.emitter h := by
      rw [wanted, halive, hfresh h hfind]
      rfl
    have hS : h ∈ w.expected.subscribed := (hw.subscribed h).mpr hwanted
    have hfilter := filter_eq_of_dropWhile hd fun k hk => hw.isAlive hk
    rw [List.filter_cons_of_pos (p := fun k => decide (k ∈ w.expected.subscribed))
      (decide_eq_true hS), hrest] at hfilter
    obtain ⟨t', hd', ht'⟩ := dropWhile_of_filter hfilter
    have hd'' : rest'.dropWhile (fun k => k ∉ w.expected.subscribed) = h :: t' := by
      simpa using hd'
    obtain rfl := hargs (by rw [hfind]; exact Option.some_ne_none h)
    simp only [EventEmitter.invokeNext, hd, ExpectedEvent.callNext, hd'']
    apply hw.call hwanted _ _ ht'.symm
    · intro k hk
      exact hl k ((List.dropWhile_sublist _).subset (hd ▸ hk))
    · intro k hk
      exact hl' k ((List.dropWhile_sublist _).subset (hd'' ▸ List.mem_cons_of_mem _ hk))

theorem isRunning_eq_false {c : EventEmitter α}
    (hl : ∀ f ∈ c.emissions, ∀ k ∈ f.running :: f.rest, k ∈ c.handlers) (hh : h ∉ c.handlers) :
    c.isRunning h = false := by
  rw [EventEmitter.isRunning, List.any_eq_false]
  intro f hf hr
  exact hh (of_decide_eq_true hr ▸ hl f hf _ List.mem_cons_self)

theorem wanted_insert_ne {c : EventEmitter α} {x : EventHandler} {subscriptions : List ℕ} {k : ℕ}
    (hk : k ≠ h) : wanted { c with handlers := c.handlers.insert h x, subscriptions } k =
      wanted c k := by
  simp [wanted, EventEmitter.isAlive, EventEmitter.lock, EventEmitter.isStale,
    EventEmitter.isRunning, AList.lookup_insert_ne hk]

theorem filter_append_new {S l : List ℕ} (hl : h ∉ l) :
    l.filter (fun k => k ∈ S ++ [h]) = l.filter fun k => k ∈ S := by
  apply List.filter_congr
  intro k hk
  have hne : k ≠ h := fun he => hl (he ▸ hk)
  simp [hne]

theorem Matches.subscribe (hw : Matches w) (once : Bool) (hh : w.emitter.handlers.lookup h = none) :
    Matches ⟨w.emitter.step moved (.subscribe h once), w.expected.step (.subscribe h once)⟩ := by
  have hnot : h ∉ w.emitter.handlers := AList.lookup_eq_none.mp hh
  have hknown : h ∉ w.expected.known := fun hk => hnot ((hw.known h).mp hk)
  have hS : h ∉ w.expected.subscribed := fun hs => hnot (hw.mem_handlers hs)
  have hgrow : ∀ k, k ∈ w.emitter.handlers → k ∈ w.emitter.handlers.insert h ⟨true, once, true⟩ :=
    fun k hk => (AList.mem_insert _).mpr (Or.inr hk)
  simp only [EventEmitter.step, hh, ExpectedEvent.step, if_neg hknown]
  constructor
  case known =>
    intro k
    simp [hw.known k, or_comm]
  case subscribed =>
    intro k
    by_cases hk : k = h
    · subst hk
      refine Iff.trans ?_ (wanted_iff (AList.lookup_insert _)).symm
      have hrun := isRunning_eq_false hw.lists hnot
      have hsame : EventEmitter.isRunning { w.emitter with
          handlers := w.emitter.handlers.insert k ⟨true, once, true⟩
          subscriptions := w.emitter.subscriptions ++ [k] } k = w.emitter.isRunning k := rfl
      simp [hsame, hrun]
    · rw [wanted_insert_ne hk, ← hw.subscribed k]
      simp [hk]
  case once =>
    intro k x hx
    by_cases hk : k = h
    · subst hk
      rw [AList.lookup_insert] at hx
      cases hx
      cases once with
      | true => simp
      | false =>
        simp only [Bool.false_eq_true, if_false, false_iff]
        intro hmem
        have h := hw.once_known k hmem
        exact hnot h
    · rw [AList.lookup_insert_ne hk] at hx
      rw [hw.once k x hx]
      cases once with
      | true => simp [hk]
      | false => simp
  case once_known =>
    intro k hk
    dsimp only at hk
    split at hk
    · obtain hk | hk := List.mem_append.mp hk
      · exact hgrow k (hw.once_known k hk)
      · exact (AList.mem_insert _).mpr (Or.inl (List.mem_singleton.mp hk))
    · exact hgrow k (hw.once_known k hk)
  case order =>
    rw [List.filter_append, filter_append_new fun hm => hnot (hw.listed h hm), hw.order]
    simp
  case listed =>
    intro k hk
    obtain hk | hk := List.mem_append.mp hk
    · exact hgrow k (hw.listed k hk)
    · exact (AList.mem_insert _).mpr (Or.inl (List.mem_singleton.mp hk))
  case emissions =>
    rw [List.forall₂_iff_zip]
    obtain ⟨hlen, hzip⟩ := List.forall₂_iff_zip.mp hw.emissions
    refine ⟨hlen, ?_⟩
    intro f g hfg
    obtain ⟨hf, hg⟩ := List.of_mem_zip hfg
    have hs := hzip hfg
    refine ⟨hs.running, hs.args, ?_⟩
    rw [filter_append_new fun hm => hnot (hw.lists f hf h (List.mem_cons_of_mem _ hm)),
      filter_append_new fun hm => hnot (hw.expectedLists g hg h hm)]
    exact hs.rest
  case lists => exact fun f hf k hk => hgrow k (hw.lists f hf k hk)
  case expectedLists => exact fun g hg k hk => hgrow k (hw.expectedLists g hg k hk)
  case log => exact hw.log
  case unknown =>
    intro k hk
    exact hw.unknown k fun hm => hk (hgrow k hm)
  case called =>
    intro k hk
    by_cases hkh : k = h
    · have hzero := hw.unknown k (hkh ▸ hnot)
      dsimp only
      omega
    · have hold : k ∈ w.expected.once := by
        dsimp only at hk
        split at hk
        · simpa [hkh] using hk
        · exact hk
      obtain ⟨hle, hzero⟩ := hw.called k hold
      refine ⟨hle, fun hs => hzero ?_⟩
      simpa [hkh] using hs

theorem Matches.unsubscribe (hw : Matches w) (h : ℕ) :
    Matches ⟨w.emitter.step moved (.unsubscribe h), w.expected.step (.unsubscribe h)⟩ := by
  have hmem : ∀ k, k ∈ (w.emitter.step moved (.unsubscribe h)).handlers ↔ k ∈ w.emitter.handlers := by
    intro k
    simp only [EventEmitter.step]
    split
    · next x hx =>
      rw [AList.mem_insert, or_iff_right_of_imp]
      rintro rfl
      exact AList.lookup_isSome.mp (by rw [hx]; rfl)
    · rfl
  have hframe : (w.emitter.step moved (.unsubscribe h)).subscriptions = w.emitter.subscriptions ∧
      (w.emitter.step moved (.unsubscribe h)).emissions = w.emitter.emissions ∧
      (w.emitter.step moved (.unsubscribe h)).log = w.emitter.log := by
    simp only [EventEmitter.step]
    split
    · exact ⟨rfl, rfl, rfl⟩
    · exact ⟨rfl, rfl, rfl⟩
  have hsub : w.expected.remove h ⊆ w.expected.subscribed :=
    fun _ hk => List.mem_of_mem_filter hk
  constructor
  case known => exact fun k => (hw.known k).trans (hmem k).symm
  case subscribed =>
    intro k
    show k ∈ w.expected.remove h ↔ _
    by_cases hk : k = h
    · subst hk
      simp only [EventEmitter.step]
      split
      · next x hx =>
        refine Iff.trans ?_ (wanted_iff (AList.lookup_insert _)).symm
        simp [ExpectedEvent.remove]
      · next hx => simp [ExpectedEvent.remove, wanted_of_lookup_none hx]
    · have hwanted : wanted (w.emitter.step moved (.unsubscribe h)) k = wanted w.emitter k := by
        simp only [EventEmitter.step]
        split
        · exact wanted_insert_ne hk
        · rfl
      rw [hwanted, ← hw.subscribed k]
      simp [ExpectedEvent.remove, hk]
  case once =>
    intro k x hx
    simp only [EventEmitter.step] at hx
    split at hx
    · next y hy =>
      by_cases hk : k = h
      · subst hk
        rw [AList.lookup_insert] at hx
        cases hx
        exact hw.once k y hy
      · rw [AList.lookup_insert_ne hk] at hx
        exact hw.once k x hx
    · exact hw.once k x hx
  case once_known => exact fun k hk => (hmem k).mpr (hw.once_known k hk)
  case order =>
    show (w.emitter.step moved (.unsubscribe h)).subscriptions.filter _ = _
    rw [hframe.1]
    exact filter_remove hw.order h
  case listed =>
    intro k hk
    rw [hframe.1] at hk
    exact (hmem k).mpr (hw.listed k hk)
  case emissions =>
    show List.Forall₂ _ (w.emitter.step moved (.unsubscribe h)).emissions _
    rw [hframe.2.1]
    exact hw.shrink hsub
  case lists =>
    intro f hf k hk
    rw [hframe.2.1] at hf
    exact (hmem k).mpr (hw.lists f hf k hk)
  case expectedLists => exact fun g hg k hk => (hmem k).mpr (hw.expectedLists g hg k hk)
  case log => exact hframe.2.2.trans hw.log
  case unknown => exact fun k hk => hw.unknown k fun hm => hk ((hmem k).mpr hm)
  case called =>
    intro k hk
    obtain ⟨hle, hzero⟩ := hw.called k hk
    exact ⟨hle, fun hs => hzero (hsub hs)⟩

theorem lookup_retire (c : EventEmitter α) (r k : ℕ) :
    (EventEmitter.retire c.handlers r).lookup k = (c.handlers.lookup k).map fun x =>
      if k = r ∧ x.once then { x with alive := false } else x := by
  unfold EventEmitter.retire
  cases hr : c.handlers.lookup r with
  | none =>
    dsimp only
    by_cases hk : k = r
    · rw [hk, hr]
      rfl
    · simp [hk]
  | some y =>
    dsimp only
    by_cases hk : k = r
    · subst hk
      cases ho : y.once with
      | true => simp [hr, ho]
      | false => simp [hr, ho]
    · split
      · rw [AList.lookup_insert_ne hk]
        simp [hk]
      · simp [hk]

theorem mem_retire (c : EventEmitter α) (r k : ℕ) :
    k ∈ EventEmitter.retire c.handlers r ↔ k ∈ c.handlers := by
  rw [← AList.lookup_isSome, ← AList.lookup_isSome, lookup_retire, Option.isSome_map]

theorem Matches.returned (hw : Matches w) {f : Emission α} {outer : List (Emission α)}
    {g : ExpectedEmission α} {outer' : List (ExpectedEmission α)}
    (hf : w.emitter.emissions = f :: outer) (hg : w.expected.emissions = g :: outer') :
    Matches ⟨w.emitter.returned f outer, { w.expected with emissions := outer' }⟩ := by
  have hmem := mem_retire w.emitter f.running
  have hall := hw.emissions
  rw [hf, hg] at hall
  constructor
  case known => exact fun k => (hw.known k).trans (hmem k).symm
  case subscribed =>
    intro k
    refine (hw.subscribed k).trans ?_
    have hlookup := lookup_retire w.emitter f.running k
    cases hx : w.emitter.handlers.lookup k with
    | none =>
      rw [hx] at hlookup
      rw [wanted_of_lookup_none hx, wanted_of_lookup_none (by exact hlookup)]
    | some x =>
      rw [hx, Option.map_some] at hlookup
      rw [wanted_iff hx, wanted_iff (by exact hlookup)]
      have hrun : w.emitter.isRunning k = (decide (f.running = k) ||
          (w.emitter.returned f outer).isRunning k) := by
        rw [EventEmitter.isRunning, hf, List.any_cons]
        rfl
      rw [hrun]
      by_cases hk : f.running = k
      · cases ho : x.once <;> simp [hk, ho]
      · simp [hk, Ne.symm hk]
  case once =>
    intro k y hy
    have hlookup := lookup_retire w.emitter f.running k
    change (EventEmitter.retire w.emitter.handlers f.running).lookup k = some y at hy
    rw [hlookup] at hy
    obtain ⟨x, hx, rfl⟩ := Option.map_eq_some_iff.mp hy
    rw [← hw.once k x hx]
    split
    · rfl
    · rfl
  case once_known => exact fun k hk => (hmem k).mpr (hw.once_known k hk)
  case order => exact hw.order
  case listed => exact fun k hk => (hmem k).mpr (hw.listed k hk)
  case emissions => exact (List.forall₂_cons.mp hall).2
  case lists =>
    intro e he k hk
    exact (hmem k).mpr (hw.lists e (hf ▸ List.mem_cons_of_mem _ he) k hk)
  case expectedLists =>
    intro e he k hk
    exact (hmem k).mpr (hw.expectedLists e (hg ▸ List.mem_cons_of_mem _ he) k hk)
  case log => exact hw.log
  case unknown => exact fun k hk => hw.unknown k fun hm => hk ((hmem k).mpr hm)
  case called => exact hw.called

theorem matches_initial : Matches ({} : EventRun α) := by
  constructor
  case known => exact fun k => ⟨fun hk => absurd hk List.not_mem_nil, fun hk => absurd hk (AList.notMem_empty k)⟩
  case subscribed =>
    exact fun k => ⟨fun hk => absurd hk List.not_mem_nil,
      fun hk => by rw [wanted_of_lookup_none rfl] at hk; cases hk⟩
  case once => exact fun k x hx => by cases hx
  case order => rfl
  case emissions => exact List.Forall₂.nil
  case log => rfl
  case unknown => exact fun _ _ => rfl
  all_goals exact fun k hk => absurd hk List.not_mem_nil

theorem Matches.logged (hw : Matches w) (o : Observed α) (ho : ∀ k, calls [o] k = 0) :
    Matches ⟨{ w.emitter with log := w.emitter.log ++ [o] },
      { w.expected with log := w.expected.log ++ [o] }⟩ := by
  constructor
  case known => exact hw.known
  case subscribed => exact hw.subscribed
  case once => exact hw.once
  case once_known => exact hw.once_known
  case order => exact hw.order
  case listed => exact hw.listed
  case emissions => exact hw.emissions
  case lists => exact hw.lists
  case expectedLists => exact hw.expectedLists
  case log => exact congrArg (· ++ [o]) hw.log
  case unknown =>
    intro k hk
    rw [calls_append, hw.unknown k hk, ho]
  case called =>
    intro k hk
    rw [calls_append, ho]
    exact hw.called k hk

theorem Matches.step (hw : Matches w) {e : EmitterEvent α} (hu : w.emitter.Undisturbed e) :
    Matches ⟨w.emitter.step moved e, w.expected.step e⟩ := by
  cases e with
  | subscribe h once =>
    cases hh : w.emitter.handlers.lookup h with
    | none => exact hw.subscribe once hh
    | some x =>
      have hknown : h ∈ w.expected.known :=
        (hw.known h).mpr (AList.lookup_isSome.mp (by rw [hh]; rfl))
      simp only [EventEmitter.step, hh, ExpectedEvent.step, if_pos hknown]
      exact hw
  | unsubscribe h => exact hw.unsubscribe h
  | emit args =>
    have hlogged := hw.logged (.emit args) fun _ => rfl
    apply hlogged.next
    case hrest =>
      refine hw.order.trans (List.filter_eq_self.mpr ?_).symm
      exact fun k hk => decide_eq_true hk
    case hl => exact hw.listed
    case hl' => exact fun k hk => hw.mem_handlers hk
    case hfresh => exact hu
    case hargs => exact fun _ => rfl
  | finish =>
    cases hf : w.emitter.emissions with
    | nil =>
      have hg := hw.emissions
      rw [hf, List.forall₂_nil_left_iff] at hg
      simp only [EventEmitter.step, hf, ExpectedEvent.step, hg]
      exact hw
    | cons f outer =>
      have hall := hw.emissions
      rw [hf] at hall
      obtain ⟨g, outer', hsame, -, hg⟩ := List.forall₂_cons_left_iff.mp hall
      have hreturned := hw.returned hf hg
      simp only [EventEmitter.Undisturbed, hf] at hu
      simp only [EventEmitter.step, hf, ExpectedEvent.step, hg, ← hsame.args]
      apply hreturned.next hsame.rest
      case hl =>
        intro k hk
        apply (mem_retire w.emitter f.running k).mpr
        exact hw.lists f (hf ▸ List.mem_cons_self) k (List.mem_cons_of_mem _ hk)
      case hl' =>
        intro k hk
        apply (mem_retire w.emitter f.running k).mpr
        exact hw.expectedLists g (hg ▸ List.mem_cons_self) k hk
      case hfresh => exact hu.1
      case hargs => exact hu.2

theorem Matches.asExpected (hw : Matches w) : AsExpected w where
  log := hw.log
  once := by
    intro h hh
    rw [hw.log]
    exact (hw.called h hh).1

def turn (args : α) : Option ℕ → Observed α
  | none => .done
  | some h => .call h args

theorem log_invokeNext (c : EventEmitter α) (passed args : α) (rest : List ℕ) :
    (c.invokeNext moved passed args rest).log = c.log ++ [turn args (rest.find? c.isAlive)] := by
  unfold EventEmitter.invokeNext
  split
  · next hd =>
    rw [find_of_dropWhile_nil hd]
    rfl
  · next h t hd =>
    rw [(find_of_dropWhile hd).2]
    rfl

theorem log_callNext (c : ExpectedEvent α) (args : α) (rest : List ℕ) :
    (c.callNext args rest).log =
      c.log ++ [turn args (rest.find? fun k => k ∈ c.subscribed)] := by
  have hnot : (fun k => decide (k ∉ c.subscribed)) = fun k => !decide (k ∈ c.subscribed) := by
    funext k
    exact decide_not
  unfold ExpectedEvent.callNext
  rw [hnot]
  split
  · next hd =>
    rw [find_of_dropWhile_nil hd]
    rfl
  · next h t hd =>
    rw [(find_of_dropWhile hd).2]
    rfl

theorem Matches.turn_eq (hw : Matches w) {passed args : α} {rest rest' : List ℕ}
    (h : turn args (rest.find? w.emitter.isAlive) =
      turn passed (rest'.find? fun k => k ∈ w.expected.subscribed)) :
    w.emitter.Fresh rest ∧ (rest.find? w.emitter.isAlive ≠ none → args = passed) := by
  cases hc : rest.find? w.emitter.isAlive with
  | none =>
    refine ⟨?_, fun hne => absurd rfl hne⟩
    intro k hk
    rw [hc] at hk
    cases hk
  | some k =>
    rw [hc] at h
    cases hs : rest'.find? fun k => k ∈ w.expected.subscribed with
    | none =>
      rw [hs] at h
      cases h
    | some j =>
      rw [hs] at h
      cases h
      have hmem := List.find?_some hs
      have hwanted := (hw.subscribed k).mp (by simpa using hmem)
      refine ⟨?_, fun _ => rfl⟩
      intro m hm
      rw [hc] at hm
      cases hm
      rw [wanted, Bool.and_eq_true, Bool.not_eq_true'] at hwanted
      exact hwanted.2

theorem Matches.undisturbed (hw : Matches w) {e : EmitterEvent α}
    (h : AsExpected ⟨w.emitter.step moved e, w.expected.step e⟩) : w.emitter.Undisturbed e := by
  cases e with
  | subscribe _ _ => trivial
  | unsubscribe _ => trivial
  | emit args =>
    have hlog := h.log
    simp only [EventEmitter.step, ExpectedEvent.step, log_invokeNext, log_callNext] at hlog
    rw [hw.log] at hlog
    exact (hw.turn_eq (List.singleton_injective (List.append_cancel_left hlog))).1
  | finish =>
    cases hf : w.emitter.emissions with
    | nil => simp only [EventEmitter.Undisturbed, hf]
    | cons f outer =>
      have hall := hw.emissions
      rw [hf] at hall
      obtain ⟨g, outer', hsame, -, hg⟩ := List.forall₂_cons_left_iff.mp hall
      have hlog := h.log
      simp only [EventEmitter.step, hf, ExpectedEvent.step, hg, log_invokeNext, log_callNext] at hlog
      have hreturned := hw.returned hf hg
      have hfront : (w.emitter.returned f outer).log = w.expected.log := hw.log
      rw [hfront] at hlog
      simp only [EventEmitter.Undisturbed, hf]
      rw [hsame.args]
      exact hreturned.turn_eq (List.singleton_injective (List.append_cancel_left hlog))

/-- An event does what it should over a whole run exactly if every step meets the condition. -/
theorem emits_as_expected_iff (moved : α → α) (events : List (EmitterEvent α)) :
    Along (step moved) (fun w e => w.emitter.Undisturbed e) {} events ↔
      ∀ es, es <+: events → ∃ w, run (step moved) {} es = some w ∧ AsExpected w :=
  along_iff (fun _ => Matches.asExpected) (fun _ _ hw hu => ⟨_, rfl, hw.step hu⟩)
    (fun _ _ _ hw hs h => hw.undisturbed (by cases hs; exact h)) matches_initial

/-- Two handlers of an event whose argument is moved: the second gets what is left. And a handler
marked `Once` that emits the event again: it is called by the inner `Emit`. -/
theorem emission_disturbed :
    (¬∀ events : List (EmitterEvent (List ℕ)), ∀ es, es <+: events →
      ∃ w, run (step fun _ => []) {} es = some w ∧ AsExpected w) ∧
    ¬∀ events : List (EmitterEvent ℕ), ∀ es, es <+: events →
      ∃ w, run (step id) {} es = some w ∧ AsExpected w := by
  constructor
  · intro h
    obtain ⟨w, hw, hexp⟩ := h [.subscribe 1 false, .subscribe 2 false, .emit [7], .finish] _
      (List.prefix_refl _)
    cases hw
    exact absurd hexp.log (by decide)
  · intro h
    obtain ⟨w, hw, hexp⟩ := h [.subscribe 1 true, .emit 7, .emit 8] _ (List.prefix_refl _)
    cases hw
    exact absurd hexp.log (by decide)

end EventRun
end AetherClient
