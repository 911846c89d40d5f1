import AetherClient.DomainMembers

set_option autoImplicit false

namespace AetherClient.Domain
open LittleEndian Ty Read FileSystem

-- `R s s'` says that the domain got from the state `s` to `s'`, both in order.
section Loads
variable {α β σ : Type} {R : σ → σ → Prop}

/-- From the bytes `code`, exactly these, a value is loaded that meets `post` in the new state. -/
def LoadsAs (R : σ → σ → Prop) (load : VectorReader → σ → Option (β × VectorReader × σ))
    (code : List UInt8) (post : σ → β → Prop) : Prop :=
  ∀ y offset result s, R s s → ∃ x s',
    load ⟨code ++ y, offset, result⟩ s = some (x, ⟨y, offset + code.length, .yes⟩, s') ∧
      R s s' ∧ post s' x

structure Growing (R : σ → σ → Prop) (post : α → σ → β → Prop) : Prop where
  right : ∀ {s s'}, R s s' → R s' s'
  trans : ∀ {s s' s''}, R s s' → R s' s'' → R s s''
  mono : ∀ {a x s s'}, R s s' → post a s x → post a s' x

variable {load : VectorReader → σ → Option (β × VectorReader × σ)} {encode : α → List UInt8}
variable {post : α → σ → β → Prop}

theorem loadInto_loads (hgrow : Growing R post) {as : List α}
    (h : ∀ a ∈ as, LoadsAs R load (encode a) (post a)) (filler : β) (y : List UInt8) (offset : ℕ)
    {result : ReadResult} (hresult : as = [] → result = .yes) {s : σ} (hs : R s s) :
    ∃ xs s', loadInto load (List.replicate as.length filler) ⟨as.flatMap encode ++ y, offset, result⟩ s =
      some (xs, ⟨y, offset + (as.flatMap encode).length, .yes⟩, s') ∧ R s s' ∧
      List.Forall₂ (fun a x => post a s' x) as xs := by
  induction as generalizing offset result s with
  | nil => exact ⟨[], s, by simp [loadInto, hresult rfl], hs, .nil⟩
  | cons a as ih =>
    obtain ⟨x, s₁, hx, hR, hpost⟩ := h a List.mem_cons_self (as.flatMap encode ++ y) offset result s hs
    obtain ⟨xs, s₂, hxs, hR', hall⟩ := ih (fun b hb => h b (List.mem_cons_of_mem a hb))
      (offset + (encode a).length) (fun _ => rfl) (hgrow.right hR)
    refine ⟨x :: xs, s₂, ?_, hgrow.trans hR hR', .cons (hgrow.mono hR' hpost) hall⟩
    simp only [List.length_cons, List.replicate_succ, List.flatMap_cons, List.append_assoc, loadInto,
      hx, Option.bind_eq_bind, Option.bind_some, if_true, hxs, List.length_append, Nat.add_assoc]
    rfl

theorem loadAdd_loads (hgrow : Growing R post) {as : List α}
    (h : ∀ a ∈ as, LoadsAs R load (encode a) (post a)) (add : List β → β → List β) (acc : List β)
    (y : List UInt8) (offset : ℕ) {s : σ} (hs : R s s) :
    ∃ xs s', loadAdd load add as.length acc ⟨as.flatMap encode ++ y, offset, .yes⟩ s =
      some (xs.foldl add acc, ⟨y, offset + (as.flatMap encode).length, .yes⟩, s') ∧ R s s' ∧
      List.Forall₂ (fun a x => post a s' x) as xs := by
  induction as generalizing offset s acc with
  | nil => exact ⟨[], s, by simp [loadAdd], hs, .nil⟩
  | cons a as ih =>
    obtain ⟨x, s₁, hx, hR, hpost⟩ := h a List.mem_cons_self (as.flatMap encode ++ y) offset .yes s hs
    obtain ⟨xs, s₂, hxs, hR', hall⟩ := ih (fun b hb => h b (List.mem_cons_of_mem a hb)) (add acc x)
      (offset + (encode a).length) (hgrow.right hR)
    refine ⟨x :: xs, s₂, ?_, hgrow.trans hR hR', .cons (hgrow.mono hR' hpost) hall⟩
    simp only [List.length_cons, List.flatMap_cons, List.append_assoc, loadAdd, hx,
      Option.bind_eq_bind, Option.bind_some, if_true, hxs, List.foldl_cons, List.length_append,
      Nat.add_assoc]

theorem LoadsAs.sized {n : ℕ} (hn : n < 2 ^ 32) {code : List UInt8} {post : σ → List β → Prop}
    {rest : ℕ → VectorReader → σ → Option (List β × VectorReader × σ)}
    (h : ∀ y offset s, R s s → ∃ xs s', rest n ⟨code ++ y, offset, .yes⟩ s =
      some (xs, ⟨y, offset + code.length, .yes⟩, s') ∧ R s s' ∧ post s' xs) :
    LoadsAs R (fun is s => loadSized is s rest) (uint32Length.serialize n ++ code) post := by
  intro y offset result s hs
  obtain ⟨xs, s', hrest, hR, hpost⟩ := h y (offset + (uint32Length.serialize n).length) s hs
  refine ⟨xs, s', ?_, hR, hpost⟩
  simp only [loadSized, List.append_assoc, uint32Length.extract_serialize hn, hrest,
    List.length_append, Nat.add_assoc]

theorem LoadsAs.both {γ : Type} {first : VectorReader → σ → Option (γ × VectorReader × σ)}
    {code code' : List UInt8} {post : σ → γ → Prop} {post' : σ → β → Prop}
    (hright : ∀ {s s'}, R s s' → R s' s') (htrans : ∀ {s s' s''}, R s s' → R s' s'' → R s s'')
    (hmono : ∀ {x s s'}, R s s' → post s x → post s' x)
    (hfirst : LoadsAs R first code post) (hload : LoadsAs R load code' post') :
    LoadsAs R (loadBoth first load) (code ++ code') fun s e => post s e.1 ∧ post' s e.2 := by
  intro y offset result s hs
  obtain ⟨a, s₁, ha, hR, hpost⟩ := hfirst (code' ++ y) offset result s hs
  obtain ⟨b, s₂, hb, hR', hpost'⟩ := hload y (offset + code.length) .yes s₁ (hright hR)
  refine ⟨(a, b), s₂, ?_, htrans hR hR', hmono hR' hpost, hpost'⟩
  simp only [loadBoth, List.append_assoc, ha, hb, Option.bind_eq_bind, Option.bind_some,
    List.length_append, Nat.add_assoc]
  rfl

theorem LoadsAs.owned {post : α → σ → β → Prop} {v : Option α}
    (h : ∀ a ∈ v, LoadsAs R load (encode a) (post a)) :
    LoadsAs R (loadOwned load) (encodePtr encode v) fun s w => Option.Rel (fun a => post a s) v w := by
  intro y offset result s hs
  cases v with
  | none =>
    have hflag := VectorReader.read_append [0] y offset result
    refine ⟨none, s, ?_, hs, .none⟩
    simp only [List.length_singleton] at hflag
    simp only [loadOwned, encodePtr, hflag, List.length_singleton]
    rfl
  | some a =>
    have hflag := VectorReader.read_append [1] (encode a ++ y) offset result
    obtain ⟨x, s', hx, hR, hpost⟩ := h a rfl y (offset + 1) .yes s hs
    refine ⟨some x, s', ?_, hR, .some hpost⟩
    have hlen : offset + (1 :: encode a).length = offset + 1 + (encode a).length := by
      rw [List.length_cons]
      omega
    simp only [List.length_singleton, List.singleton_append] at hflag
    simp only [loadOwned, encodePtr, List.cons_append, hflag, hlen]
    rw [if_neg (by decide), hx]
    rfl

end Loads

section Members
variable {A σ : Type} {R : σ → σ → Prop} {lib : StdLibrary} {overflow : Overflow}
variable {ident : A → ObjId × ObjFlags} {loadRootImpl : ObjId → ObjFlags → σ → Option (ObjPtr ℕ × σ)}

variable {placed : σ → ℕ → Option ObjId}

structure LoadsRoots (R : σ → σ → Prop) (ident : A → ObjId × ObjFlags) (placed : σ → ℕ → Option ObjId)
    (loadRootImpl : ObjId → ObjFlags → σ → Option (ObjPtr ℕ × σ)) (live : A → Prop) : Prop where
  right : ∀ {s s'}, R s s' → R s' s'
  trans : ∀ {s s' s''}, R s s' → R s' s'' → R s s''
  placed_mono : ∀ {s s'}, R s s' → ∀ n id, placed s n = some id → placed s' n = some id
  invalid : ∀ flags s, R s s → loadRootImpl 0 flags s = some (.empty 0 flags, s)
  object : ∀ a, live a → ∀ flags s, R s s → ∃ n s',
    loadRootImpl (ident a).1 flags s = some (.object n, s') ∧ R s s' ∧ placed s' n = some (ident a).1

variable {live : A → Prop}

theorem LoadsRoots.matches_mono (h : LoadsRoots R ident placed loadRootImpl live) {s s' : σ}
    (hR : R s s') (p : ObjPtr A) (q : ObjPtr ℕ) :
    Matches ident (placed s) p q → Matches ident (placed s') p q :=
  Matches.mono (h.placed_mono hR)

theorem loadPtr_written (id : ObjId) (flags : ObjFlags) (y : List UInt8) (offset : ℕ)
    (result : ReadResult) (s : σ) :
    loadPtr loadRootImpl ⟨toBytes 4 id.toNat ++ toBytes 1 flags.toNat ++ y, offset, result⟩ s =
      if unloaded flags then some (.empty id flags, ⟨y, offset + 5, .yes⟩, s)
      else (loadRootImpl id flags s).map fun p => (p.1, ⟨y, offset + 5, .yes⟩, p.2) := by
  have hid : block ⟨toBytes 4 id.toNat ++ (toBytes 1 flags.toNat ++ y), offset, result⟩ 4 (0 : ObjId)
      (fun bytes => BitVec.ofNat 32 (ofBytes bytes)) =
      (id, ⟨toBytes 1 flags.toNat ++ y, offset + 4, .yes⟩) :=
    reads_scalar .four id 0 (toBytes 1 flags.toNat ++ y) offset result
  have hflags : block ⟨toBytes 1 flags.toNat ++ y, offset + 4, .yes⟩ 1 (0 : ObjFlags)
      (fun bytes => BitVec.ofNat 8 (ofBytes bytes)) = (flags, ⟨y, offset + 5, .yes⟩) :=
    reads_scalar .one flags 0 y (offset + 4) .yes
  rw [List.append_assoc, loadPtr, hid]
  simp only [hflags]
  cases loadRootImpl id flags s <;> rfl

theorem loadPtr_loads (h : LoadsRoots R ident placed loadRootImpl live) {ptr : ObjPtr A}
    (hproper : ProperPtr ptr) (hlive : ∀ a ∈ ptr.target, unloaded (ident a).2 = false → live a) :
    LoadsAs R (loadPtr loadRootImpl) (writePtr ident ptr)
      fun s q => Matches ident (placed s) ptr q := by
  intro y offset result s hs
  have hlen : (writePtr ident ptr).length = 5 := by simp [writePtr]
  rw [hlen, writePtr, loadPtr_written]
  cases ptr with
  | empty id flags =>
    refine ⟨.empty id flags, s, ?_, hs, rfl⟩
    obtain hflag | rfl := hproper
    · rw [ObjPtr.getFlags, if_pos hflag, ObjPtr.getId]
    · rw [ObjPtr.getFlags, ObjPtr.getId, h.invalid flags s hs]
      split <;> rfl
  | object a =>
    rw [ObjPtr.getFlags, ObjPtr.getId]
    by_cases hflag : unloaded (ident a).2 = true
    · refine ⟨.empty (ident a).1 (ident a).2, s, by rw [if_pos hflag], hs, ?_⟩
      simp only [Matches, hflag, if_true]
    · have hoff : unloaded (ident a).2 = false := by simpa using hflag
      obtain ⟨n, s', hload, hR, hplaced⟩ := h.object a (hlive a List.mem_cons_self hoff) _ s hs
      refine ⟨.object n, s', by rw [if_neg hflag, hload]; rfl, hR, ?_⟩
      simp only [Matches, hflag]
      exact ⟨n, rfl, hplaced⟩

theorem foldl_emplace_loaded {κ ν ν' : Type} {less : κ → κ → Bool} {rel : ν → ν' → Prop}
    (hirrefl : ∀ x, less x x = false)
    (htrans : ∀ x y z, less x y = true → less y z = true → less x z = true)
    {entries : List (κ × ν)} {loaded : List (κ × ν')} (hasc : Ascending less entries)
    (h : List.Forall₂ (fun e e' => e.1 = e'.1 ∧ rel e.2 e'.2) entries loaded) :
    loaded.foldl (emplace less) [] = loaded := by
  have hkeys : loaded.map Prod.fst = entries.map Prod.fst := by
    induction h with
    | nil => rfl
    | cons he _ ih => rw [List.map_cons, List.map_cons, ih (List.pairwise_cons.mp hasc).2, he.1]
  have hloaded : Ascending less loaded := by
    have hpairs : (loaded.map Prod.fst).Pairwise fun x y => less x y = true := by
      rw [hkeys]
      exact List.pairwise_map.mpr hasc
    exact List.pairwise_map.mp hpairs
  exact foldl_emplace_perm hirrefl htrans hloaded (List.Perm.refl _)

def MemberLoads (R : σ → σ → Prop) (lib : StdLibrary) (overflow : Overflow)
    (ident : A → ObjId × ObjFlags) (placed : σ → ℕ → Option ObjId)
    (loadRootImpl : ObjId → ObjFlags → σ → Option (ObjPtr ℕ × σ)) (m : MemberTy) (v : m.Value A) : Prop :=
  LoadsAs R (loadMember lib overflow loadRootImpl m) (write lib ident m v)
    fun s w => Related (Matches ident (placed s)) m v w

section Containers
variable {m : MemberTy}

theorem LoadsRoots.related (h : LoadsRoots R ident placed loadRootImpl live) (m : MemberTy) :
    Growing R fun (v : m.Value A) s (w : m.Value ℕ) => Related (Matches ident (placed s)) m v w where
  right := h.right
  trans := h.trans
  mono := fun hR => Related.mono (h.matches_mono hR)

theorem memberLoads_vector (h : LoadsRoots R ident placed loadRootImpl live) {vs : List (m.Value A)}
    (hlen : vs.length < 2 ^ 32)
    (heach : ∀ v ∈ vs, MemberLoads R lib overflow ident placed loadRootImpl m v) :
    MemberLoads R lib overflow ident placed loadRootImpl (.vector m) vs :=
  LoadsAs.sized hlen fun y offset _ hs =>
    loadInto_loads (h.related m) heach (m.fresh ℕ) y offset (fun _ => rfl) hs

theorem memberLoads_list (h : LoadsRoots R ident placed loadRootImpl live) {vs : List (m.Value A)}
    (hlen : vs.length < 2 ^ 32)
    (heach : ∀ v ∈ vs, MemberLoads R lib overflow ident placed loadRootImpl m v) :
    MemberLoads R lib overflow ident placed loadRootImpl (.list m) vs := by
  refine LoadsAs.sized hlen fun y offset s hs => ?_
  obtain ⟨xs, s', hload, hR, hall⟩ :=
    loadAdd_loads (h.related m) heach (fun xs x => xs ++ [x]) [] y offset hs
  rw [foldl_append_singleton, List.nil_append] at hload
  exact ⟨xs, s', hload, hR, hall⟩

theorem memberLoads_array (h : LoadsRoots R ident placed loadRootImpl live) {n : ℕ}
    {vs : List (m.Value A)} (hlen : vs.length = n + 1)
    (heach : ∀ v ∈ vs, MemberLoads R lib overflow ident placed loadRootImpl m v) :
    MemberLoads R lib overflow ident placed loadRootImpl (.array n m) vs := by
  intro y offset result s hs
  have hne : vs ≠ [] := List.ne_nil_of_length_eq_add_one hlen
  have hresult : vs = [] → result = .yes := fun hnil => absurd hnil hne
  obtain ⟨xs, s', hload, hR, hall⟩ := loadInto_loads (h.related m) heach (m.fresh ℕ) y offset hresult hs
  rw [hlen] at hload
  exact ⟨xs, s', hload, hR, hall⟩

theorem loadPlain_loads (R : σ → σ → Prop) {t : Ty} {v : t.Value}
    (hfits : Fits lib uint32Length.countedLimits t v) :
    LoadsAs R (loadPlain lib overflow t) (encode lib uint32Length t v) fun _ w => v = w := by
  intro y offset result s hs
  have hreads := reads_encode lib overflow uint32Length t v hfits y offset result
  exact ⟨v, s, by simp only [loadPlain, hreads], hs, rfl⟩

theorem memberLoads_map (h : LoadsRoots R ident placed loadRootImpl live) {key : Ty}
    {entries : List (key.Value × m.Value A)} (hasc : Ascending (lib.less key) entries)
    (hlen : entries.length < 2 ^ 32)
    (hkeys : ∀ e ∈ entries, Fits lib uint32Length.countedLimits key e.1)
    (heach : ∀ e ∈ entries, MemberLoads R lib overflow ident placed loadRootImpl m e.2) :
    MemberLoads R lib overflow ident placed loadRootImpl (.map key m) entries := by
  have hgrow : Growing R fun (e : key.Value × m.Value A) s (e' : key.Value × m.Value ℕ) =>
      e.1 = e'.1 ∧ Related (Matches ident (placed s)) m e.2 e'.2 :=
    ⟨h.right, h.trans, fun hR he => ⟨he.1, he.2.mono (h.matches_mono hR)⟩⟩
  have hentry : ∀ e ∈ entries, LoadsAs R
      (loadBoth (loadPlain lib overflow key) (loadMember lib overflow loadRootImpl m))
      (encode lib uint32Length key e.1 ++ write lib ident m e.2)
      fun s e' => e.1 = e'.1 ∧ Related (Matches ident (placed s)) m e.2 e'.2 := fun e he =>
    LoadsAs.both h.right h.trans (fun _ hx => hx) (loadPlain_loads R (hkeys e he)) (heach e he)
  refine LoadsAs.sized hlen fun y offset s hs => ?_
  obtain ⟨xs, s', hload, hR, hall⟩ := loadAdd_loads hgrow hentry (emplace (lib.less key)) [] y offset hs
  rw [foldl_emplace_loaded (lib.less_irrefl key) (lib.less_trans key) hasc hall] at hload
  exact ⟨xs, s', hload, hR, hall⟩

end Containers

theorem memberLoads (h : LoadsRoots R ident placed loadRootImpl live) (overflow : Overflow)
    {m : MemberTy} {v : m.Value A} (hproper : ProperMember lib m v) (hrestorable : Restorable lib m v)
    (hlive : ∀ a ∈ targets m v, unloaded (ident a).2 = false → live a) :
    MemberLoads R lib overflow ident placed loadRootImpl m v := by
  induction m with
  | plain t => exact loadPlain_loads R (Proper.fits hproper hrestorable)
  | objPtr => exact loadPtr_loads h hproper hlive
  | vector m ih | deque m ih =>
    exact memberLoads_vector h hrestorable.1 fun x hx =>
      ih (hproper x hx) (hrestorable.2 x hx) fun a ha => hlive a (List.mem_flatMap.mpr ⟨x, hx, ha⟩)
  | list m ih =>
    exact memberLoads_list h hrestorable.1 fun x hx =>
      ih (hproper x hx) (hrestorable.2 x hx) fun a ha => hlive a (List.mem_flatMap.mpr ⟨x, hx, ha⟩)
  | array n m ih =>
    exact memberLoads_array h hproper.1 fun x hx =>
      ih (hproper.2 x hx) (hrestorable x hx) fun a ha => hlive a (List.mem_flatMap.mpr ⟨x, hx, ha⟩)
  | map key m ih =>
    refine memberLoads_map h hproper.1 hrestorable.1 (fun e he => ?_) fun e he => ?_
    · exact (hproper.2 e he).1.fits (hrestorable.2 e he).1
    · exact ih (hproper.2 e he).2 (hrestorable.2 e he).2 fun a ha =>
        hlive a (List.mem_flatMap.mpr ⟨e, he, ha⟩)
  | pair a b iha ihb =>
    exact LoadsAs.both h.right h.trans (fun hR hx => hx.mono (h.matches_mono hR))
      (iha hproper.1 hrestorable.1 fun j hj => hlive j (List.mem_append_left _ hj))
      (ihb hproper.2 hrestorable.2 fun j hj => hlive j (List.mem_append_right _ hj))
  | owned m ih =>
    exact LoadsAs.owned fun x hx => ih (hproper x hx) (hrestorable x hx) fun a ha =>
      hlive a (List.mem_flatMap.mpr ⟨x, Option.mem_toList.mpr hx, ha⟩)

end Members

end AetherClient.Domain
