import AetherClient.MstreamRange
import AetherClient.ObjClassData

set_option autoImplicit false

namespace AetherClient.Domain
open LittleEndian Ty Read FileSystem

abbrev ObjFlags := BitVec 8

def kUnloadedByDefault : ObjFlags := 1
def kUnloaded : ObjFlags := 2

def unloaded (flags : ObjFlags) : Bool :=
  flags &&& kUnloadedByDefault ≠ 0 || flags &&& kUnloaded ≠ 0

/-- A pointer has an object, whose id and flags it then gives, or only an id and flags. -/
inductive ObjPtr (A : Type) where
  | empty (id : ObjId) (flags : ObjFlags)
  | object (a : A)
deriving DecidableEq, Repr

/-- `array n m` has `n + 1` elements, `owned m` is a `unique_ptr` or a `shared_ptr`; the fields of a
struct are pairs. -/
inductive MemberTy where
  | plain (t : Ty)
  | objPtr
  | vector (m : MemberTy)
  | deque (m : MemberTy)
  | list (m : MemberTy)
  | array (n : ℕ) (m : MemberTy)
  | map (key : Ty) (m : MemberTy)
  | pair (first second : MemberTy)
  | owned (m : MemberTy)
deriving DecidableEq, Repr

namespace MemberTy

def Value (A : Type) : MemberTy → Type
  | plain t => t.Value
  | objPtr => ObjPtr A
  | vector m => List (m.Value A)
  | deque m => List (m.Value A)
  | list m => List (m.Value A)
  | array _ m => List (m.Value A)
  | map key m => List (key.Value × m.Value A)
  | pair a b => a.Value A × b.Value A
  | owned m => Option (m.Value A)

def fresh (A : Type) : (m : MemberTy) → m.Value A
  | plain t => t.fresh
  | objPtr => ObjPtr.empty 0 kUnloaded
  | vector m => ([] : List (m.Value A))
  | deque m => ([] : List (m.Value A))
  | list m => ([] : List (m.Value A))
  | array n m => List.replicate (n + 1) (m.fresh A)
  | map key m => ([] : List (key.Value × m.Value A))
  | pair a b => (a.fresh A, b.fresh A)
  | owned m => (none : Option (m.Value A))

end MemberTy

section Write
variable {A : Type} (lib : StdLibrary) (ident : A → ObjId × ObjFlags)

def ObjPtr.getId : ObjPtr A → ObjId
  | .empty id _ => id
  | .object a => (ident a).1

def ObjPtr.getFlags : ObjPtr A → ObjFlags
  | .empty _ flags => flags
  | .object a => (ident a).2

def writePtr (ptr : ObjPtr A) : List UInt8 :=
  toBytes 4 (ptr.getId ident).toNat ++ toBytes 1 (ptr.getFlags ident).toNat

def write : (m : MemberTy) → m.Value A → List UInt8
  | .plain t, v => encode lib uint32Length t v
  | .objPtr, ptr => writePtr ident ptr
  | .vector m, vs => encodeElements uint32Length (write m) vs
  | .deque m, vs => encodeElements uint32Length (write m) vs
  | .list m, vs => encodeElements uint32Length (write m) vs
  | .array _ m, vs => List.flatMap (write m) vs
  | .map key m, entries =>
    encodeElements uint32Length (fun e => encode lib uint32Length key e.1 ++ write m e.2) entries
  | .pair a b, v => write a v.1 ++ write b v.2
  | .owned m, v => encodePtr (write m) v

def ObjPtr.target : ObjPtr A → List A
  | .empty _ _ => []
  | .object a => [a]

def targets : (m : MemberTy) → m.Value A → List A
  | .plain _, _ => []
  | .objPtr, ptr => ObjPtr.target ptr
  | .vector m, vs => List.flatMap (targets m) vs
  | .deque m, vs => List.flatMap (targets m) vs
  | .list m, vs => List.flatMap (targets m) vs
  | .array _ m, vs => List.flatMap (targets m) vs
  | .map _ m, entries => List.flatMap (fun e => targets m e.2) entries
  | .pair a b, v => targets a v.1 ++ targets b v.2
  | .owned m, v => List.flatMap (targets m) (Option.toList v)

end Write

section Read
variable {β σ : Type}

def loadInto (load : VectorReader → σ → Option (β × VectorReader × σ)) :
    List β → VectorReader → σ → Option (List β × VectorReader × σ)
  | [], is, s => some ([], is, s)
  | _ :: xs, is, s => do
    let (x, is, s) ← load is s
    if is.result = .yes then
      let (xs, is, s) ← loadInto load xs is s
      return (x :: xs, is, s)
    else return (x :: xs, is, s)

def loadAdd (load : VectorReader → σ → Option (β × VectorReader × σ)) (add : List β → β → List β) :
    ℕ → List β → VectorReader → σ → Option (List β × VectorReader × σ)
  | 0, xs, is, s => some (xs, is, s)
  | turns + 1, xs, is, s => do
    let (x, is, s) ← load is s
    if is.result = .yes then loadAdd load add turns (add xs x) is s
    else return (xs, is, s)

def loadSized (is : VectorReader) (s : σ)
    (rest : ℕ → VectorReader → σ → Option (List β × VectorReader × σ)) :
    Option (List β × VectorReader × σ) :=
  match uint32Length.extract is with
  | (none, is) => some ([], is, s)
  | (some n, is) => rest n is s

def loadBoth {γ : Type} (first : VectorReader → σ → Option (γ × VectorReader × σ))
    (second : VectorReader → σ → Option (β × VectorReader × σ)) (is : VectorReader) (s : σ) :
    Option ((γ × β) × VectorReader × σ) := do
  let (x, is, s) ← first is s
  let (y, is, s) ← second is s
  return ((x, y), is, s)

/-- An owning pointer: the flag, and if it is set a new object, which is kept if it was read. -/
def loadOwned (load : VectorReader → σ → Option (β × VectorReader × σ)) (is : VectorReader) (s : σ) :
    Option (Option β × VectorReader × σ) :=
  match is.read 1 with
  | (none, is) => some (none, is, s)
  | (some bytes, is) =>
    if ofBytes bytes = 0 then some (none, is, s)
    else do
      let (v, is, s) ← load is s
      return (if is.result = .yes then some v else none, is, s)

variable {B : Type} (lib : StdLibrary) (overflow : Overflow)
variable (loadRootImpl : ObjId → ObjFlags → σ → Option (ObjPtr B × σ))

def loadPtr (is : VectorReader) (s : σ) : Option (ObjPtr B × VectorReader × σ) :=
  match block is 4 (0 : ObjId) fun bytes => BitVec.ofNat 32 (ofBytes bytes) with
  | (id, is) =>
    match block is 1 (0 : ObjFlags) fun bytes => BitVec.ofNat 8 (ofBytes bytes) with
    | (flags, is) =>
      if unloaded flags then some (.empty id flags, is, s)
      else do
        let (ptr, s) ← loadRootImpl id flags s
        return (ptr, is, s)

def loadPlain (t : Ty) (is : VectorReader) (s : σ) : Option (t.Value × VectorReader × σ) :=
  match decode lib overflow uint32Length t t.fresh is with
  | (v, is) => some (v, is, s)

def loadMember : (m : MemberTy) → VectorReader → σ → Option (m.Value B × VectorReader × σ)
  | .plain t, is, s => loadPlain lib overflow t is s
  | .objPtr, is, s => loadPtr loadRootImpl is s
  | .vector m, is, s =>
    loadSized is s fun n => loadInto (loadMember m) (List.replicate n (m.fresh B))
  | .deque m, is, s =>
    loadSized is s fun n => loadInto (loadMember m) (List.replicate n (m.fresh B))
  | .list m, is, s => loadSized is s fun n => loadAdd (loadMember m) (fun xs x => xs ++ [x]) n []
  | .array n m, is, s => loadInto (loadMember m) (List.replicate (n + 1) (m.fresh B)) is s
  | .map key m, is, s =>
    loadSized is s fun n =>
      loadAdd (loadBoth (loadPlain lib overflow key) (loadMember m)) (emplace (lib.less key)) n []
  | .pair a b, is, s => loadBoth (loadMember a) (loadMember b) is s
  | .owned m, is, s => loadOwned (loadMember m) is s

end Read

section Restorable
variable {A B : Type} (lib : StdLibrary)

/-- A pointer without an object says so by a flag or has no id. -/
def ProperPtr : ObjPtr A → Prop
  | .empty id flags => unloaded flags = true ∨ id = 0
  | .object _ => True

def ProperMember : (m : MemberTy) → m.Value A → Prop
  | .plain t, v => Proper lib t v
  | .objPtr, ptr => ProperPtr ptr
  | .vector m, vs => ForallElements (ProperMember m) vs
  | .deque m, vs => ForallElements (ProperMember m) vs
  | .list m, vs => ForallElements (ProperMember m) vs
  | .array n m, vs => List.length vs = n + 1 ∧ ForallElements (ProperMember m) vs
  | .map key m, entries => Ascending (lib.less key) entries ∧
      ForallElements (fun e => Proper lib key e.1 ∧ ProperMember m e.2) entries
  | .pair a b, v => ProperMember a v.1 ∧ ProperMember b v.2
  | .owned m, v => FitsPtr (ProperMember m) v

/-- The sizes can be counted and the time points are whole microseconds. -/
def Restorable : (m : MemberTy) → m.Value A → Prop
  | .plain t, v => Within lib.ticks uint32Length.countedLimits t v
  | .objPtr, _ => True
  | .vector m, vs => FitsElements (2 ^ 32) (Restorable m) vs
  | .deque m, vs => FitsElements (2 ^ 32) (Restorable m) vs
  | .list m, vs => FitsElements (2 ^ 32) (Restorable m) vs
  | .array _ m, vs => ForallElements (Restorable m) vs
  | .map key m, entries => FitsElements (2 ^ 32)
      (fun e => Within lib.ticks uint32Length.countedLimits key e.1 ∧ Restorable m e.2) entries
  | .pair a b, v => Restorable a v.1 ∧ Restorable b v.2
  | .owned m, v => FitsPtr (Restorable m) v

def Related (r : ObjPtr A → ObjPtr B → Prop) : (m : MemberTy) → m.Value A → m.Value B → Prop
  | .plain _, v, w => v = w
  | .objPtr, p, q => r p q
  | .vector m, vs, ws => List.Forall₂ (Related r m) vs ws
  | .deque m, vs, ws => List.Forall₂ (Related r m) vs ws
  | .list m, vs, ws => List.Forall₂ (Related r m) vs ws
  | .array _ m, vs, ws => List.Forall₂ (Related r m) vs ws
  | .map _ m, entries, entries' =>
    List.Forall₂ (fun e e' => e.1 = e'.1 ∧ Related r m e.2 e'.2) entries entries'
  | .pair a b, v, w => Related r a v.1 w.1 ∧ Related r b v.2 w.2
  | .owned m, v, w => Option.Rel (Related r m) v w

variable {lib} {r r' : ObjPtr A → ObjPtr B → Prop}

theorem forall₂_imp_of_mem {α β : Type} {R S : α → β → Prop} {xs : List α} {ys : List β}
    (h : List.Forall₂ R xs ys) (himp : ∀ x ∈ xs, ∀ y, R x y → S x y) : List.Forall₂ S xs ys := by
  have hboth := (List.forall₂_and_left xs ys).mpr ⟨himp, h⟩
  exact hboth.imp fun _ y hxy => hxy.1 y hxy.2

theorem Related.mono_of_targets {P : A → Prop}
    (hr : ∀ p q, (∀ a ∈ ObjPtr.target p, P a) → r p q → r' p q) {m : MemberTy} {v : m.Value A}
    {w : m.Value B} (hv : ∀ a ∈ targets m v, P a) (h : Related r m v w) : Related r' m v w := by
  induction m with
  | plain t => exact h
  | objPtr => exact hr v w hv h
  | vector m ih | deque m ih | list m ih | array n m ih =>
    refine forall₂_imp_of_mem h fun x hx _ hrel => ?_
    exact ih (fun a ha => hv a (List.mem_flatMap.mpr ⟨x, hx, ha⟩)) hrel
  | map key m ih =>
    refine forall₂_imp_of_mem h fun e he _ hrel => ⟨hrel.1, ?_⟩
    exact ih (fun a ha => hv a (List.mem_flatMap.mpr ⟨e, he, ha⟩)) hrel.2
  | pair a b iha ihb =>
    exact ⟨iha (fun x hx => hv x (List.mem_append_left _ hx)) h.1,
      ihb (fun x hx => hv x (List.mem_append_right _ hx)) h.2⟩
  | owned m ih =>
    obtain h | _ := h
    · exact .some (ih (fun a ha => hv a (List.mem_flatMap.mpr ⟨_, List.mem_cons_self, ha⟩)) h)
    · exact .none

theorem Related.mono (hr : ∀ p q, r p q → r' p q) {m : MemberTy} {v : m.Value A} {w : m.Value B}
    (h : Related r m v w) : Related r' m v w :=
  h.mono_of_targets (P := fun _ => True) (fun p q _ => hr p q) fun _ _ => trivial

theorem exists_of_forall₂ {α β : Type} {R : α → β → Prop} {xs : List α} {ys : List β}
    (h : List.Forall₂ R xs ys) {x : α} (hx : x ∈ xs) : ∃ y ∈ ys, R x y := by
  induction h with
  | nil => cases hx
  | cons hxy _ ih =>
    obtain rfl | hx := List.mem_cons.mp hx
    · exact ⟨_, List.mem_cons_self, hxy⟩
    · obtain ⟨y, hy, hrel⟩ := ih hx
      exact ⟨y, List.mem_cons_of_mem _ hy, hrel⟩

theorem FitsElements.of_forall₂ {α β : Type} {R : α → β → Prop} {P : α → Prop} {Q : β → Prop}
    {limit : ℕ} {xs : List α} {ys : List β} (h : List.Forall₂ R xs ys)
    (hpq : ∀ x y, R x y → Q y → P x) (hys : FitsElements limit Q ys) : FitsElements limit P xs := by
  refine ⟨h.length_eq ▸ hys.1, fun x hx => ?_⟩
  obtain ⟨y, hy, hrel⟩ := exists_of_forall₂ h hx
  exact hpq x y hrel (hys.2 y hy)

theorem Restorable.of_related {m : MemberTy} {v : m.Value A} {w : m.Value B} (h : Related r m v w)
    (hw : Restorable lib m w) : Restorable lib m v := by
  induction m with
  | plain t =>
    obtain rfl : v = w := h
    exact hw
  | objPtr => trivial
  | vector m ih | deque m ih | list m ih => exact FitsElements.of_forall₂ h (fun _ _ => ih) hw
  | array n m ih =>
    intro x hx
    obtain ⟨y, hy, hrel⟩ := exists_of_forall₂ h hx
    exact ih hrel (hw y hy)
  | map key m ih =>
    refine FitsElements.of_forall₂ h (fun e e' he hrest => ?_) hw
    exact ⟨he.1 ▸ hrest.1, ih he.2 hrest.2⟩
  | pair a b iha ihb => exact ⟨iha h.1 hw.1, ihb h.2 hw.2⟩
  | owned m ih =>
    obtain hrel | _ := h
    · rintro x ⟨⟩
      exact ih hrel (hw _ rfl)
    · exact fun x hx => absurd hx (Option.not_mem_none x)

theorem restorable_fresh (lib : StdLibrary) (m : MemberTy) : Restorable lib m (m.fresh B) := by
  induction m with
  | plain t => exact within_fresh lib.ticks t
  | objPtr => trivial
  | vector m | deque m | list m | map key m => exact fitsElements_nil (Nat.two_pow_pos 32)
  | array n m ih =>
    intro x hx
    rw [(List.mem_replicate.mp hx).2]
    exact ih
  | pair a b iha ihb => exact ⟨iha, ihb⟩
  | owned m => exact fun x hx => absurd hx (Option.not_mem_none x)

end Restorable

section Range
variable {β σ : Type} {I : σ → Prop} {P : β → Prop}

/-- Whatever the bytes are, what is loaded meets `P`, and the domain keeps `I`. -/
def Yields (I : σ → Prop) (P : β → Prop) (load : VectorReader → σ → Option (β × VectorReader × σ)) : Prop :=
  ∀ is s x is' s', load is s = some (x, is', s') → I s → P x ∧ I s'

variable {load : VectorReader → σ → Option (β × VectorReader × σ)}

theorem Yields.loadInto (hload : Yields I P load) {xs : List β} (hxs : ∀ x ∈ xs, P x) :
    Yields I (fun ys => ys.length = xs.length ∧ ∀ y ∈ ys, P y) (loadInto load xs) := by
  induction xs with
  | nil =>
    intro is s ys is' s' h hs
    cases h
    exact ⟨⟨rfl, hxs⟩, hs⟩
  | cons x xs ih =>
    intro is s ys is' s' h hs
    have htail : ∀ y ∈ xs, P y := fun y hy => hxs y (List.mem_cons_of_mem x hy)
    simp only [Domain.loadInto, Option.bind_eq_bind, Option.bind_eq_some_iff] at h
    obtain ⟨⟨y, is₁, s₁⟩, hone, h⟩ := h
    obtain ⟨hy, hs₁⟩ := hload is s y is₁ s₁ hone hs
    simp only at h
    split at h
    · obtain ⟨⟨rest, is₂, s₂⟩, hrest, h⟩ := Option.bind_eq_some_iff.mp h
      cases h
      obtain ⟨⟨hlen, hall⟩, hs₂⟩ := ih htail is₁ s₁ rest is₂ s₂ hrest hs₁
      exact ⟨⟨congrArg Nat.succ hlen, List.forall_mem_cons.mpr ⟨hy, hall⟩⟩, hs₂⟩
    · cases h
      exact ⟨⟨rfl, List.forall_mem_cons.mpr ⟨hy, htail⟩⟩, hs₁⟩

theorem Yields.loadAdd (hload : Yields I P load) {add : List β → β → List β}
    (hadd : ∀ xs x y, y ∈ add xs x → y = x ∨ y ∈ xs)
    (hlen : ∀ xs x, (add xs x).length ≤ xs.length + 1) (turns : ℕ) {xs : List β} (hxs : ∀ x ∈ xs, P x) :
    Yields I (fun ys => ys.length ≤ xs.length + turns ∧ ∀ y ∈ ys, P y) (loadAdd load add turns xs) := by
  induction turns generalizing xs with
  | zero =>
    intro is s ys is' s' h hs
    cases h
    exact ⟨⟨Nat.le_refl _, hxs⟩, hs⟩
  | succ turns ih =>
    intro is s ys is' s' h hs
    simp only [Domain.loadAdd, Option.bind_eq_bind, Option.bind_eq_some_iff] at h
    obtain ⟨⟨x, is₁, s₁⟩, hone, h⟩ := h
    obtain ⟨hx, hs₁⟩ := hload is s x is₁ s₁ hone hs
    simp only at h
    split at h
    · have hadded : ∀ y ∈ add xs x, P y := by
        intro y hy
        obtain rfl | hy := hadd xs x y hy
        · exact hx
        · exact hxs y hy
      have hone := hlen xs x
      obtain ⟨⟨hlength, hall⟩, hs'⟩ := ih hadded is₁ s₁ ys is' s' h hs₁
      exact ⟨⟨by omega, hall⟩, hs'⟩
    · cases h
      exact ⟨⟨Nat.le_add_right _ _, hxs⟩, hs₁⟩

theorem yields_sized {rest : ℕ → VectorReader → σ → Option (List β × VectorReader × σ)}
    (hrest : ∀ n, Yields I (fun ys => ys.length ≤ n ∧ ∀ y ∈ ys, P y) (rest n)) :
    Yields I (FitsElements (2 ^ 32) P) (fun is s => loadSized is s rest) := by
  intro is s ys is' s' h hs
  simp only [loadSized] at h
  split at h
  · cases h
    exact ⟨fitsElements_nil (Nat.two_pow_pos 32), hs⟩
  · next n is₁ hextract =>
    obtain ⟨⟨hlen, hall⟩, hs'⟩ := hrest n is₁ s ys is' s' h hs
    exact ⟨⟨Nat.lt_of_le_of_lt hlen (extract_uint32_lt hextract), hall⟩, hs'⟩

theorem Yields.both {γ : Type} {first : VectorReader → σ → Option (γ × VectorReader × σ)} {Q : γ → Prop}
    (hfirst : Yields I Q first) (hload : Yields I P load) :
    Yields I (fun e => Q e.1 ∧ P e.2) (loadBoth first load) := by
  intro is s e is' s' h hs
  obtain ⟨⟨x, is₁, s₁⟩, hone, h⟩ := Option.bind_eq_some_iff.mp h
  obtain ⟨⟨y, is₂, s₂⟩, htwo, h⟩ := Option.bind_eq_some_iff.mp h
  cases h
  obtain ⟨hx, hs₁⟩ := hfirst _ _ _ _ _ hone hs
  obtain ⟨hy, hs₂⟩ := hload _ _ _ _ _ htwo hs₁
  exact ⟨⟨hx, hy⟩, hs₂⟩

theorem Yields.owned (hload : Yields I P load) : Yields I (FitsPtr P) (loadOwned load) := by
  have hnone : FitsPtr P (none : Option β) := fun x hx => absurd hx (Option.not_mem_none x)
  intro is s v is' s' h hs
  unfold loadOwned at h
  split at h
  · cases h
    exact ⟨hnone, hs⟩
  · split at h
    · cases h
      exact ⟨hnone, hs⟩
    · obtain ⟨⟨x, is₁, s₁⟩, hone, h⟩ := Option.bind_eq_some_iff.mp h
      cases h
      obtain ⟨hx, hs₁⟩ := hload _ _ _ _ _ hone hs
      refine ⟨?_, hs₁⟩
      split
      · rintro y ⟨⟩
        exact hx
      · exact hnone

variable {B : Type} {lib : StdLibrary} {loadRootImpl : ObjId → ObjFlags → σ → Option (ObjPtr B × σ)}

theorem yields_loadPtr (hroot : ∀ id flags s ptr s', loadRootImpl id flags s = some (ptr, s') → I s → I s') :
    Yields I (fun _ => True) (loadPtr loadRootImpl) := by
  intro is s ptr is' s' h hs
  simp only [loadPtr] at h
  split at h
  · cases h
    exact ⟨trivial, hs⟩
  · obtain ⟨⟨ptr₁, s₁⟩, hload, h⟩ := Option.bind_eq_some_iff.mp h
    cases h
    exact ⟨trivial, hroot _ _ _ _ _ hload hs⟩

theorem yields_loadPlain (t : Ty) :
    Yields I (Within lib.ticks uint32Length.countedLimits t) (loadPlain lib dropped t) := by
  intro is s v is' s' h hs
  cases h
  exact ⟨decode_within lib t is, hs⟩

theorem forall_replicate_fresh (lib : StdLibrary) (m : MemberTy) (n : ℕ) :
    ∀ x ∈ List.replicate n (m.fresh B), Restorable lib m x := by
  intro x hx
  rw [(List.mem_replicate.mp hx).2]
  exact restorable_fresh lib m

theorem loadMember_restorable
    (hroot : ∀ id flags s ptr s', loadRootImpl id flags s = some (ptr, s') → I s → I s') (m : MemberTy) :
    Yields I (Restorable lib m) (loadMember lib dropped loadRootImpl m) := by
  induction m with
  | plain t => exact yields_loadPlain t
  | objPtr => exact yields_loadPtr hroot
  | vector m ih | deque m ih =>
    refine yields_sized fun n is s ys is' s' h hs => ?_
    obtain ⟨⟨hlen, hall⟩, hs'⟩ := ih.loadInto (forall_replicate_fresh lib m n) is s ys is' s' h hs
    rw [List.length_replicate] at hlen
    exact ⟨⟨Nat.le_of_eq hlen, hall⟩, hs'⟩
  | list m ih =>
    refine yields_sized fun n is s ys is' s' h hs => ?_
    simpa using ih.loadAdd (by simp [or_comm]) (by simp) n (fun x hx => absurd hx List.not_mem_nil)
      is s ys is' s' h hs
  | array n m ih =>
    intro is s ys is' s' h hs
    obtain ⟨⟨-, hall⟩, hs'⟩ := ih.loadInto (forall_replicate_fresh lib m (n + 1)) is s ys is' s' h hs
    exact ⟨hall, hs'⟩
  | map key m ih =>
    refine yields_sized fun n is s ys is' s' h hs => ?_
    simpa using (Yields.both (yields_loadPlain key) ih).loadAdd (fun _ _ _ => mem_emplace)
      length_emplace_le n (fun x hx => absurd hx List.not_mem_nil) is s ys is' s' h hs
  | pair a b iha ihb => exact iha.both ihb
  | owned m ih => exact ih.owned

end Range

section Places
variable {A : Type} {ident : A → ObjId × ObjFlags} {places places' : ℕ → Option ObjId}

/-- A pointer to an object that is loaded came to a place with an object of the same id. -/
def Matches (ident : A → ObjId × ObjFlags) (placed : ℕ → Option ObjId) : ObjPtr A → ObjPtr ℕ → Prop
  | .empty id flags, q => q = .empty id flags
  | .object a, q =>
    if unloaded (ident a).2 then q = .empty (ident a).1 (ident a).2
    else ∃ n, q = .object n ∧ placed n = some (ident a).1

theorem Matches.mono_of_target {p : ObjPtr A} {q : ObjPtr ℕ}
    (hplaces : ∀ a ∈ ObjPtr.target p, unloaded (ident a).2 = false →
      ∀ n, places n = some (ident a).1 → places' n = some (ident a).1)
    (h : Matches ident places p q) : Matches ident places' p q := by
  cases p with
  | empty id flags => exact h
  | object a =>
    rw [Matches] at h ⊢
    split at h
    · next hflag =>
      rw [if_pos hflag]
      exact h
    · next hflag =>
      rw [if_neg hflag]
      obtain ⟨n, rfl, hn⟩ := h
      exact ⟨n, rfl, hplaces a List.mem_cons_self (by simpa using hflag) n hn⟩

theorem Matches.mono (hplaces : ∀ n id, places n = some id → places' n = some id) {p : ObjPtr A} {q : ObjPtr ℕ}
    (h : Matches ident places p q) : Matches ident places' p q :=
  h.mono_of_target fun a _ _ n => hplaces n (ident a).1

theorem Related.exists_placed {m : MemberTy} {v : m.Value A} {w : m.Value ℕ}
    (h : Related (Matches ident places) m v w) {a : A} (ha : a ∈ targets m v)
    (hflag : unloaded (ident a).2 = false) : ∃ n ∈ targets m w, places n = some (ident a).1 := by
  induction m with
  | plain t => cases ha
  | objPtr =>
    cases v with
    | empty id flags => cases ha
    | object b =>
      obtain rfl : a = b := List.mem_singleton.mp ha
      have hmatch : Matches ident places (.object a) w := h
      simp only [Matches, hflag] at hmatch
      obtain ⟨n, rfl, hn⟩ := hmatch
      exact ⟨n, List.mem_cons_self, hn⟩
  | vector m ih | deque m ih | list m ih | array n m ih =>
    obtain ⟨x, hx, ha⟩ := List.mem_flatMap.mp ha
    obtain ⟨y, hy, hrel⟩ := exists_of_forall₂ h hx
    obtain ⟨n, hn, hplace⟩ := ih hrel ha
    exact ⟨n, List.mem_flatMap.mpr ⟨y, hy, hn⟩, hplace⟩
  | map key m ih =>
    obtain ⟨x, hx, ha⟩ := List.mem_flatMap.mp ha
    obtain ⟨y, hy, hrel⟩ := exists_of_forall₂ h hx
    obtain ⟨n, hn, hplace⟩ := ih hrel.2 ha
    exact ⟨n, List.mem_flatMap.mpr ⟨y, hy, hn⟩, hplace⟩
  | pair a b iha ihb =>
    obtain ha | ha := List.mem_append.mp ha
    · obtain ⟨n, hn, hplace⟩ := iha h.1 ha
      exact ⟨n, List.mem_append_left _ hn, hplace⟩
    · obtain ⟨n, hn, hplace⟩ := ihb h.2 ha
      exact ⟨n, List.mem_append_right _ hn, hplace⟩
  | owned m ih =>
    obtain hrel | _ := h
    · obtain ⟨x, hx, hax⟩ := List.mem_flatMap.mp ha
      obtain rfl := List.mem_singleton.mp hx
      obtain ⟨n, hn, hplace⟩ := ih hrel hax
      exact ⟨n, List.mem_flatMap.mpr ⟨_, List.mem_cons_self, hn⟩, hplace⟩
    · cases ha

theorem targets_fresh (m : MemberTy) : targets m (m.fresh A) = [] := by
  induction m with
  | plain t | objPtr | vector m | deque m | list m | map key m | owned m => rfl
  | array n m ih =>
    refine List.flatMap_eq_nil_iff.mpr fun x hx => ?_
    rw [(List.mem_replicate.mp hx).2]
    exact ih
  | pair a b iha ihb => exact List.append_eq_nil_iff.mpr ⟨iha, ihb⟩

end Places

end AetherClient.Domain
