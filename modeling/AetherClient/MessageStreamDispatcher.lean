import AetherClient.Runs
import AetherClient.Tables

set_option autoImplicit false

/-!
# Message streams

`MessageStreamDispatcher` has a stream for each peer, by its uid. A payload comes with an 8 bit
stream id, and every live stream that has this id emits it. The ids of streams opened here come
from a generator that counts in steps of two and starts again after 255; it is static, so others
use it as well. The ids of streams announced by the server are taken as they are.

A handler of the new stream event may keep the `Ptr` it is given; then the stream lives on after
`CloseStream`.
-/
namespace AetherClient

structure MessageStream (Uid : Type) where
  object : ℕ
  destination : Uid
  streamId : BitVec 8
  inMap : Bool
  kept : Bool

inductive DispatcherEvent (Uid : Type) where
  | getMessageStream (uid : Uid)
  | nextStreamId
  /-- The announcement, and whether the handler of the new stream event keeps a new stream. -/
  | streamToClient (uid : Uid) (streamId : BitVec 8) (keep : Bool)
  | closeStream (uid : Uid)
  | release (object : ℕ)
  | payload (streamId : BitVec 8)

/-- A payload, the streams that emitted it, and the peer for which its id was last used. -/
structure PayloadRecord (Uid : Type) where
  streamId : BitVec 8
  emittedOn : List (MessageStream Uid)
  lastUser : Option Uid

structure MessageStreamDispatcher (Uid : Type) where
  nextStreamId : BitVec 8
  fresh : ℕ := 0
  streams : List (MessageStream Uid) := []
  lastUser : BitVec 8 → Option Uid := fun _ => none
  log : List (PayloadRecord Uid) := []

namespace MessageStreamDispatcher
variable {Uid : Type} [DecidableEq Uid]

def find (w : MessageStreamDispatcher Uid) (uid : Uid) : Option (MessageStream Uid) :=
  w.streams.find? fun m => m.inMap ∧ m.destination = uid

def use (w : MessageStreamDispatcher Uid) (uid : Uid) (s : BitVec 8) : MessageStreamDispatcher Uid :=
  { w with lastUser := Function.update w.lastUser s (some uid) }

def createMessageStream (w : MessageStreamDispatcher Uid) (uid : Uid) (s : BitVec 8) (keep : Bool) :
    MessageStreamDispatcher Uid :=
  { w with fresh := w.fresh + 1, streams := w.streams ++ [⟨w.fresh, uid, s, true, keep⟩] }

def setStreamId (w : MessageStreamDispatcher Uid) (object : ℕ) (s : BitVec 8) :
    MessageStreamDispatcher Uid :=
  { w with streams := w.streams.map fun m =>
      if m.object = object then { m with streamId := s } else m }

def retain (w : MessageStreamDispatcher Uid) (f : MessageStream Uid → MessageStream Uid) :
    MessageStreamDispatcher Uid :=
  { w with streams := (w.streams.map f).filter fun m => m.inMap || m.kept }

def emittedOn (w : MessageStreamDispatcher Uid) (s : BitVec 8) : List (MessageStream Uid) :=
  w.streams.filter fun m => m.streamId = s

def record (w : MessageStreamDispatcher Uid) (s : BitVec 8) : PayloadRecord Uid :=
  ⟨s, w.emittedOn s, w.lastUser s⟩

def step (w : MessageStreamDispatcher Uid) :
    DispatcherEvent Uid → Option (MessageStreamDispatcher Uid)
  | .getMessageStream uid =>
    match w.find uid with
    | some _ => some w
    | none =>
      let s := w.nextStreamId
      some (({ w with nextStreamId := s + 2 }.use uid s).createMessageStream uid s false)
  | .nextStreamId => some { w with nextStreamId := w.nextStreamId + 2 }
  | .streamToClient uid s keep =>
    match w.find uid with
    -- nothing is set if the stream has the id already, which setting it does not change either
    | some m => some ((w.use uid s).setStreamId m.object s)
    | none => some ((w.use uid s).createMessageStream uid s keep)
  | .closeStream uid =>
    some (w.retain fun m => if m.inMap ∧ m.destination = uid then { m with inMap := false } else m)
  | .release object =>
    some (w.retain fun m => if m.object = object then { m with kept := false } else m)
  | .payload s => some { w with log := w.log ++ [w.record s] }

/-- The payload is emitted on at most one stream, and on none of a peer other than the last
user of its id. -/
structure PayloadRecord.Right (r : PayloadRecord Uid) : Prop where
  once : r.emittedOn.length ≤ 1
  peer : ∀ m ∈ r.emittedOn, ∀ uid, r.lastUser = some uid → m.destination = uid

/-- Every payload so far was emitted right, and so is the next one, whatever its id. -/
structure Separated (w : MessageStreamDispatcher Uid) : Prop where
  past : ∀ r ∈ w.log, PayloadRecord.Right r
  next : ∀ s, PayloadRecord.Right (w.record s)

/-- When an id is used for a peer, no live stream has it, other than the peer's own stream. -/
def Unshared (w : MessageStreamDispatcher Uid) : DispatcherEvent Uid → Prop
  | .getMessageStream uid => w.find uid = none → ∀ m ∈ w.streams, m.streamId ≠ w.nextStreamId
  | .streamToClient uid s _ => ∀ m ∈ w.streams, m.streamId = s → m.inMap ∧ m.destination = uid
  | _ => True

structure Inv (w : MessageStreamDispatcher Uid) : Prop where
  objects : (w.streams.map MessageStream.object).Nodup
  below : ∀ m ∈ w.streams, m.object < w.fresh
  mapped : ∀ m ∈ w.streams, ∀ m' ∈ w.streams, m.inMap → m'.inMap →
    m.destination = m'.destination → m = m'
  unique : ∀ m ∈ w.streams, ∀ m' ∈ w.streams, m.streamId = m'.streamId → m = m'
  user : ∀ m ∈ w.streams, w.lastUser m.streamId = some m.destination
  past : ∀ r ∈ w.log, PayloadRecord.Right r

variable {w w' : MessageStreamDispatcher Uid} {uid : Uid} {s : BitVec 8} {m : MessageStream Uid}

theorem find_mem (h : w.find uid = some m) : m ∈ w.streams ∧ m.inMap ∧ m.destination = uid := by
  have hp := List.find?_some h
  exact ⟨List.mem_of_find?_eq_some h, by simpa using hp⟩

theorem find_none (h : w.find uid = none) (hm : m ∈ w.streams) (hi : m.inMap) :
    m.destination ≠ uid := by
  have hp := List.find?_eq_none.mp h m hm
  intro hd
  simp [hi, hd] at hp

omit [DecidableEq Uid] in
theorem Inv.right (hw : Inv w) (s : BitVec 8) : PayloadRecord.Right (w.record s) where
  once := by
    have hn : (w.emittedOn s).Nodup := (hw.objects.of_map _).filter _
    show (w.emittedOn s).length ≤ 1
    match hl : w.emittedOn s with
    | [] => exact Nat.zero_le 1
    | [_] => exact Nat.le_refl 1
    | a :: b :: rest =>
      obtain ⟨ha, has⟩ := List.mem_filter.mp (hl ▸ List.mem_cons_self : a ∈ w.emittedOn s)
      obtain ⟨hb, hbs⟩ := List.mem_filter.mp
        (hl ▸ List.mem_cons_of_mem _ List.mem_cons_self : b ∈ w.emittedOn s)
      have hab := hw.unique a ha b hb
        ((of_decide_eq_true has).trans (of_decide_eq_true hbs).symm)
      rw [hl, hab] at hn
      exact absurd List.mem_cons_self (List.nodup_cons.mp hn).1
  peer := by
    intro m hm uid huid
    obtain ⟨hmem, hs⟩ := List.mem_filter.mp hm
    have hu := hw.user m hmem
    rw [of_decide_eq_true hs] at hu
    exact Option.some.inj (hu.symm.trans huid)

omit [DecidableEq Uid] in
theorem Inv.separated (hw : Inv w) : Separated w := ⟨hw.past, hw.right⟩

theorem Inv.create (hw : Inv w) (hfind : w.find uid = none) (hs : ∀ m ∈ w.streams, m.streamId ≠ s)
    (keep : Bool) (next : BitVec 8) :
    Inv (({ w with nextStreamId := next }.use uid s).createMessageStream uid s keep) := by
  have hmem : ∀ m ∈ w.streams ++ [⟨w.fresh, uid, s, true, keep⟩], m ∈ w.streams ∨
      m = ⟨w.fresh, uid, s, true, keep⟩ := by
    intro m hm
    simpa using hm
  constructor
  case objects => exact Tables.nodup_concat hw.objects fun m hm => Nat.ne_of_lt (hw.below m hm)
  case below =>
    intro m hm
    show m.object < w.fresh + 1
    obtain hm | rfl := hmem m hm
    · have hlt := hw.below m hm
      omega
    · exact Nat.lt_succ_self _
  case mapped =>
    intro m hm m' hm' hi hi' hd
    obtain hm | rfl := hmem m hm
    · obtain hm' | rfl := hmem m' hm'
      · exact hw.mapped m hm m' hm' hi hi' hd
      · exact absurd hd (find_none hfind hm hi)
    · obtain hm' | rfl := hmem m' hm'
      · exact absurd hd.symm (find_none hfind hm' hi')
      · rfl
  case unique =>
    intro m hm m' hm' he
    obtain hm | rfl := hmem m hm
    · obtain hm' | rfl := hmem m' hm'
      · exact hw.unique m hm m' hm' he
      · exact absurd he (hs m hm)
    · obtain hm' | rfl := hmem m' hm'
      · exact absurd he.symm (hs m' hm')
      · rfl
  case user =>
    intro m hm
    show Function.update w.lastUser s (some uid) m.streamId = some m.destination
    obtain hm | rfl := hmem m hm
    · rw [Function.update_of_ne (hs m hm)]
      exact hw.user m hm
    · exact Function.update_self ..
  case past => exact hw.past

theorem Inv.setStreamId (hw : Inv w) (hfind : w.find uid = some m)
    (hs : ∀ m ∈ w.streams, m.streamId = s → m.inMap ∧ m.destination = uid) :
    Inv ((w.use uid s).setStreamId m.object s) := by
  obtain ⟨hm, hin, hdest⟩ := find_mem hfind
  -- a member of the new list is the renamed stream, or an old one with another id
  have hmem : ∀ n ∈ ((w.use uid s).setStreamId m.object s).streams,
      n = { m with streamId := s } ∨ n ∈ w.streams ∧ n.object ≠ m.object ∧ n.streamId ≠ s := by
    intro n hn
    obtain ⟨k, hk, rfl⟩ := List.mem_map.mp hn
    by_cases hobj : k.object = m.object
    · left
      rw [if_pos hobj, List.inj_on_of_nodup_map hw.objects hk hm hobj]
    · right
      rw [if_neg hobj]
      refine ⟨hk, hobj, ?_⟩
      intro hks
      obtain ⟨hki, hkd⟩ := hs k hk hks
      exact hobj (congrArg MessageStream.object (hw.mapped k hk m hm hki hin (hkd.trans hdest.symm)))
  constructor
  case objects =>
    have hmap : ((w.use uid s).setStreamId m.object s).streams.map MessageStream.object =
        w.streams.map MessageStream.object := by
      simp only [MessageStreamDispatcher.setStreamId, use, List.map_map]
      apply List.map_congr_left
      intro k _
      simp only [Function.comp_apply]
      split <;> rfl
    rw [hmap]
    exact hw.objects
  case below =>
    intro n hn
    obtain rfl | ⟨hn, -, -⟩ := hmem n hn
    · exact hw.below m hm
    · exact hw.below n hn
  case mapped =>
    intro n hn n' hn' hi hi' hd
    obtain rfl | ⟨hn, hobj, -⟩ := hmem n hn
    · obtain rfl | ⟨hn', hobj', -⟩ := hmem n' hn'
      · rfl
      · exact absurd (congrArg MessageStream.object (hw.mapped m hm n' hn' hi hi' hd)).symm hobj'
    · obtain rfl | ⟨hn', -, -⟩ := hmem n' hn'
      · exact absurd (congrArg MessageStream.object (hw.mapped n hn m hm hi hi' hd)) hobj
      · exact hw.mapped n hn n' hn' hi hi' hd
  case unique =>
    intro n hn n' hn' he
    obtain rfl | ⟨hn, -, hne⟩ := hmem n hn
    · obtain rfl | ⟨-, -, hne'⟩ := hmem n' hn'
      · rfl
      · exact absurd he.symm hne'
    · obtain rfl | ⟨hn', -, -⟩ := hmem n' hn'
      · exact absurd he hne
      · exact hw.unique n hn n' hn' he
  case user =>
    intro n hn
    show Function.update w.lastUser s (some uid) n.streamId = some n.destination
    obtain rfl | ⟨hn, -, hne⟩ := hmem n hn
    · rw [Function.update_self, hdest]
    · rw [Function.update_of_ne hne]
      exact hw.user n hn
  case past => exact hw.past

omit [DecidableEq Uid] in
theorem Inv.retain (hw : Inv w) {f : MessageStream Uid → MessageStream Uid}
    (hf : ∀ m, (f m).object = m.object ∧ (f m).destination = m.destination ∧
      (f m).streamId = m.streamId ∧ ((f m).inMap → m.inMap)) : Inv (w.retain f) := by
  have hmem : ∀ n ∈ (w.retain f).streams, ∃ m ∈ w.streams, f m = n := by
    intro n hn
    exact List.mem_map.mp (List.mem_of_mem_filter hn)
  constructor
  case objects =>
    have hmap : (w.streams.map f).map MessageStream.object = w.streams.map MessageStream.object := by
      rw [List.map_map]
      exact List.map_congr_left fun m _ => (hf m).1
    exact (hmap ▸ hw.objects).sublist (List.filter_sublist.map _)
  case below =>
    intro n hn
    obtain ⟨m, hm, rfl⟩ := hmem n hn
    rw [(hf m).1]
    exact hw.below m hm
  case mapped =>
    intro n hn n' hn' hi hi' hd
    obtain ⟨m, hm, rfl⟩ := hmem n hn
    obtain ⟨m', hm', rfl⟩ := hmem n' hn'
    rw [(hf m).2.1, (hf m').2.1] at hd
    rw [hw.mapped m hm m' hm' ((hf m).2.2.2 hi) ((hf m').2.2.2 hi') hd]
  case unique =>
    intro n hn n' hn' he
    obtain ⟨m, hm, rfl⟩ := hmem n hn
    obtain ⟨m', hm', rfl⟩ := hmem n' hn'
    rw [(hf m).2.2.1, (hf m').2.2.1] at he
    rw [hw.unique m hm m' hm' he]
  case user =>
    intro n hn
    obtain ⟨m, hm, rfl⟩ := hmem n hn
    rw [(hf m).2.1, (hf m).2.2.1]
    exact hw.user m hm
  case past => exact hw.past

theorem Inv.step (hw : Inv w) {e : DispatcherEvent Uid} (hu : w.Unshared e) :
    ∃ w', w.step e = some w' ∧ Inv w' := by
  cases e with
  | getMessageStream uid =>
    cases hfind : w.find uid with
    | some m => exact ⟨w, by simp only [MessageStreamDispatcher.step, hfind], hw⟩
    | none =>
      exact ⟨_, by simp only [MessageStreamDispatcher.step, hfind],
        hw.create hfind (hu hfind) false (w.nextStreamId + 2)⟩
  | nextStreamId => exact ⟨_, rfl, hw.objects, hw.below, hw.mapped, hw.unique, hw.user, hw.past⟩
  | streamToClient uid s keep =>
    cases hfind : w.find uid with
    | some m =>
      exact ⟨_, by simp only [MessageStreamDispatcher.step, hfind], hw.setStreamId hfind hu⟩
    | none =>
      have hs : ∀ m ∈ w.streams, m.streamId ≠ s := by
        intro m hm he
        obtain ⟨hi, hd⟩ := hu m hm he
        exact find_none hfind hm hi hd
      exact ⟨_, by simp only [MessageStreamDispatcher.step, hfind],
        hw.create hfind hs keep w.nextStreamId⟩
  | closeStream uid =>
    refine ⟨_, rfl, hw.retain ?_⟩
    intro m
    split
    · exact ⟨rfl, rfl, rfl, fun h => by cases h⟩
    · exact ⟨rfl, rfl, rfl, id⟩
  | release object =>
    refine ⟨_, rfl, hw.retain ?_⟩
    intro m
    split
    · exact ⟨rfl, rfl, rfl, id⟩
    · exact ⟨rfl, rfl, rfl, id⟩
  | payload s =>
    refine ⟨_, rfl, hw.objects, hw.below, hw.mapped, hw.unique, hw.user, ?_⟩
    intro r hr
    obtain hr | hr := List.mem_append.mp hr
    · exact hw.past r hr
    · rw [List.mem_singleton.mp hr]
      exact hw.right s

omit [DecidableEq Uid] in
theorem Separated.unique (hw : Separated w) {m m' : MessageStream Uid} (hm : m ∈ w.streams)
    (hm' : m' ∈ w.streams) (h : m.streamId = m'.streamId) : m = m' := by
  have hone := (hw.next m.streamId).once
  have hmem : m ∈ w.emittedOn m.streamId := List.mem_filter.mpr ⟨hm, decide_eq_true rfl⟩
  have hmem' : m' ∈ w.emittedOn m.streamId := List.mem_filter.mpr ⟨hm', decide_eq_true h.symm⟩
  change (w.emittedOn m.streamId).length ≤ 1 at hone
  match hl : w.emittedOn m.streamId with
  | [] =>
    rw [hl] at hmem
    cases hmem
  | [a] =>
    rw [hl, List.mem_singleton] at hmem hmem'
    rw [hmem, hmem']
  | a :: b :: rest =>
    rw [hl, List.length_cons, List.length_cons] at hone
    omega

omit [DecidableEq Uid] in
theorem Inv.new_streamId (hw : Inv w) {k : MessageStream Uid} (hs : Separated w')
    (hadded : w'.streams = w.streams ++ [k]) (hk : k.object = w.fresh) {m : MessageStream Uid}
    (hm : m ∈ w.streams) : m.streamId ≠ k.streamId := by
  intro he
  have hsame := hs.unique (hadded ▸ List.mem_append_left _ hm)
    (hadded ▸ List.mem_append_right _ List.mem_cons_self) he
  have hlt := hw.below m hm
  rw [hsame, hk] at hlt
  exact absurd hlt (Nat.lt_irrefl _)

theorem Inv.unshared (hw : Inv w) {e : DispatcherEvent Uid} (h : w.step e = some w')
    (hs : Separated w') : w.Unshared e := by
  cases e with
  | getMessageStream uid =>
    intro hfind m hm he
    simp only [MessageStreamDispatcher.step, hfind] at h
    cases h
    exact hw.new_streamId hs rfl rfl hm he
  | streamToClient uid s keep =>
    intro m hm he
    cases hfind : w.find uid with
    | some k =>
      obtain ⟨hk, hin, hdest⟩ := find_mem hfind
      simp only [MessageStreamDispatcher.step, hfind] at h
      cases h
      have hobj : m.object = k.object := by
        by_contra hne
        have hm' : m ∈ ((w.use uid s).setStreamId k.object s).streams :=
          List.mem_map.mpr ⟨m, hm, if_neg hne⟩
        have hk' : ({ k with streamId := s } : MessageStream Uid) ∈
            ((w.use uid s).setStreamId k.object s).streams :=
          List.mem_map.mpr ⟨k, hk, if_pos rfl⟩
        have hsame := hs.unique hm' hk' he
        exact hne (by rw [hsame])
      rw [List.inj_on_of_nodup_map hw.objects hm hk hobj]
      exact ⟨hin, hdest⟩
    | none =>
      simp only [MessageStreamDispatcher.step, hfind] at h
      cases h
      exact absurd he (hw.new_streamId hs rfl rfl hm)
  | _ => trivial

omit [DecidableEq Uid] in
theorem inv_initial (n : BitVec 8) : Inv ({ nextStreamId := n } : MessageStreamDispatcher Uid) := by
  constructor
  case objects => exact List.nodup_nil
  all_goals exact fun m hm => absurd hm List.not_mem_nil

/-- The messages of the peers stay apart over a whole run exactly if no id is taken into use while
another live stream has it. -/
theorem separated_iff (n : BitVec 8) (events : List (DispatcherEvent Uid)) :
    Runs.Along step Unshared { nextStreamId := n } events ↔
      ∀ es, es <+: events → ∃ w, Runs.run step { nextStreamId := n } es = some w ∧ Separated w :=
  Runs.along_iff (fun _ => Inv.separated) (fun _ _ hw hu => hw.step hu)
    (fun _ _ _ hw h hs => hw.unshared h hs) (inv_initial n)

/-- Two peers announce streams with the same id, and a payload comes. -/
theorem payload_on_two_streams : ¬∀ events : List (DispatcherEvent ℕ), ∀ es, es <+: events →
    ∃ w, Runs.run step { nextStreamId := 1 } es = some w ∧ ∀ r ∈ w.log, PayloadRecord.Right r := by
  intro h
  obtain ⟨w, hw, hright⟩ := h [.streamToClient 10 7 false, .streamToClient 20 7 false, .payload 7] _
    (List.prefix_refl _)
  cases hw
  have hone := (hright _ (List.mem_singleton.mpr rfl)).once
  revert hone
  decide

end MessageStreamDispatcher
end AetherClient
