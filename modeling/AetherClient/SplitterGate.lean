import Mathlib.Data.List.Nodup
import AetherClient.Runs
import AetherClient.StreamApi

set_option autoImplicit false

/-!
# Two splitters on one channel

A `SplitterGate` notifies every message from below to the handlers of its protocol context: its own
`OnStream`, subscribed in its constructor, and one handler for each gate, in the order in which
the gates were made. `Emit` calls those that were subscribed when it began. `OnStream` makes a gate
for a new stream, emits the new stream event and hands the buffer to the gate itself.

Two splitters are joined by a channel in each direction. Every buffer is a packet of its own, and
it is read as it was packed (`StreamMessage.parse_pack`), so the channel is a list of messages. The
handlers of the new stream event and of the gates may register streams and write, and the channel
may hand over packets while they run, as one that calls its other end from inside `Write` does.
-/
namespace AetherClient
open Runs

inductive SplitterSide where
  | left
  | right
deriving DecidableEq, Repr

def SplitterSide.other : SplitterSide → SplitterSide
  | left => right
  | right => left

inductive SplitterLog where
  | registered (s : BitVec 8)
  | newStream (s : BitVec 8)
  | emitted (gate : BitVec 8) (m : StreamMessage)
deriving DecidableEq

structure SplitterGate where
  /-- The ids of `streams_`, in the order of their subscriptions. -/
  streams : List (BitVec 8) := []
  incoming : List StreamMessage := []
  /-- All that the other side has written. -/
  written : List StreamMessage := []
  log : List SplitterLog := []

namespace SplitterGate

def registerStream (v : SplitterGate) (s : BitVec 8) : SplitterGate :=
  if s ∈ v.streams then v
  else { v with streams := v.streams ++ [s], log := v.log ++ [.registered s] }

/-- The part of `OnStream` up to the handlers of the new stream event. -/
def announce (v : SplitterGate) (s : BitVec 8) : SplitterGate :=
  { v with streams := v.streams ++ [s], log := v.log ++ [.newStream s] }

def putData (v : SplitterGate) (gate : BitVec 8) (m : StreamMessage) : SplitterGate :=
  { v with log := v.log ++ [.emitted gate m] }

def send (v : SplitterGate) (m : StreamMessage) : SplitterGate :=
  { v with incoming := v.incoming ++ [m], written := v.written ++ [m] }

end SplitterGate

/-- Handlers that are running, with the message and the gates that `Emit` has still to ask. -/
inductive SplitterFrame where
  | newStream (x : SplitterSide) (m : StreamMessage) (gates : List (BitVec 8))
  | data (x : SplitterSide) (m : StreamMessage) (gates : List (BitVec 8))

inductive SplitterEvent where
  | register (x : SplitterSide) (s : BitVec 8)
  | write (x : SplitterSide) (s : BitVec 8) (data : List (BitVec 8))
  | deliver (x : SplitterSide)
  | ret

structure SplitterLink where
  side : SplitterSide → SplitterGate := fun _ => {}
  frames : List SplitterFrame := []

namespace SplitterLink

def modify (w : SplitterLink) (x : SplitterSide) (f : SplitterGate → SplitterGate) : SplitterLink :=
  { w with side := Function.update w.side x (f (w.side x)) }

def push (w : SplitterLink) (f : SplitterFrame) : SplitterLink := { w with frames := f :: w.frames }

def emitData (w : SplitterLink) (x : SplitterSide) (m : StreamMessage) (gate : BitVec 8)
    (gates : List (BitVec 8)) : SplitterLink :=
  (w.modify x (·.putData gate m)).push (.data x m gates)

/-- `Emit` goes on with the handlers of the gates, up to one that calls handlers itself. -/
def readSubscriptions (w : SplitterLink) (x : SplitterSide) (m : StreamMessage) :
    List (BitVec 8) → SplitterLink
  | [] => w
  | gate :: gates =>
    if gate = m.streamId then w.emitData x m gate gates else w.readSubscriptions x m gates

/-- `Emit` over the handlers that are subscribed now, of which `OnStream` is the first. -/
def messageNotify (w : SplitterLink) (x : SplitterSide) (m : StreamMessage) : SplitterLink :=
  let gates := (w.side x).streams
  if m.streamId ∈ gates then w.readSubscriptions x m gates
  else (w.modify x (·.announce m.streamId)).push (.newStream x m gates)

def resume (w : SplitterLink) : SplitterFrame → SplitterLink
  | .newStream x m gates => w.emitData x m m.streamId gates
  | .data x m gates => w.readSubscriptions x m gates

def next (w : SplitterLink) : SplitterEvent → SplitterLink
  | .register x s => w.modify x (·.registerStream s)
  | .write x s data =>
    if s ∈ (w.side x).streams then w.modify x.other (·.send ⟨s, data⟩) else w
  | .deliver x =>
    match (w.side x).incoming with
    | [] => w
    | m :: rest => (w.modify x fun v => { v with incoming := rest }).messageNotify x m
  | .ret =>
    match w.frames with
    | [] => w
    | f :: rest => { w with frames := rest }.resume f

def step (w : SplitterLink) (e : SplitterEvent) : Option SplitterLink := some (w.next e)

end SplitterLink

def SplitterLog.streamId : SplitterLog → BitVec 8
  | .registered s => s
  | .newStream s => s
  | .emitted gate _ => gate

namespace SplitterGate

def about (log : List SplitterLog) (s : BitVec 8) : List SplitterLog :=
  log.filter fun o => o.streamId = s

def emitted (log : List SplitterLog) (s : BitVec 8) : List StreamMessage :=
  log.filterMap fun o => match o with
    | .emitted gate m => if gate = s then some m else none
    | _ => none

def ofStream (ms : List StreamMessage) (s : BitVec 8) : List StreamMessage :=
  ms.filter fun m => m.streamId = s

/-- The gate of the stream has emitted what was written on it, once and in order, apart from what
is on its way: in the channel, or in `pending`, while the new stream event is emitted for it. The new
stream event came first, and once, unless the stream was registered by the user before. -/
structure Demultiplexed (v : SplitterGate) (pending : List StreamMessage) (s : BitVec 8) : Prop where
  exact : emitted v.log s ++ ofStream pending s ++ ofStream v.incoming s = ofStream v.written s
  announced : about v.log s = [] ∨
    about v.log s = .registered s :: (emitted v.log s).map (.emitted s) ∨
    (emitted v.log s ≠ [] ∨ ofStream pending s ≠ []) ∧
      about v.log s = .newStream s :: (emitted v.log s).map (.emitted s)

section Lists
variable {log : List SplitterLog} {s t : BitVec 8} {ms ms' : List StreamMessage} {m : StreamMessage}

theorem about_append_self {o : SplitterLog} (h : o.streamId = s) :
    about (log ++ [o]) s = about log s ++ [o] := by
  simp [about, h]

theorem about_append_ne {o : SplitterLog} (h : o.streamId ≠ s) :
    about (log ++ [o]) s = about log s := by
  simp [about, h]

theorem emitted_append (o : SplitterLog) :
    emitted (log ++ [o]) s = emitted log s ++ emitted [o] s := List.filterMap_append

theorem ofStream_append : ofStream (ms ++ ms') s = ofStream ms s ++ ofStream ms' s :=
  List.filter_append ..

theorem ofStream_cons : ofStream (m :: ms) s = ofStream [m] s ++ ofStream ms s := by
  rw [← ofStream_append, List.singleton_append]

theorem emitted_of_about_nil (h : about log s = []) : emitted log s = [] := by
  rw [emitted, List.filterMap_eq_nil_iff]
  intro o ho
  have hne := List.filter_eq_nil_iff.mp h o ho
  cases o with
  | registered _ => rfl
  | newStream _ => rfl
  | emitted gate m =>
    have hgate : gate ≠ s := fun h => hne (decide_eq_true h)
    exact if_neg hgate

end Lists

structure Sound (v : SplitterGate) (pending : List StreamMessage) : Prop where
  nodup : v.streams.Nodup
  streams : ∀ s, s ∈ v.streams ↔ about v.log s ≠ []
  demultiplexed : ∀ s, Demultiplexed v pending s

variable {v : SplitterGate} {pending : List StreamMessage} {s : BitVec 8} {m : StreamMessage}

theorem Sound.emitted_nil (hv : Sound v pending) (hs : s ∉ v.streams) : emitted v.log s = [] := by
  apply emitted_of_about_nil
  by_contra h
  exact hs ((hv.streams s).mpr h)

theorem Sound.open (hv : Sound v pending) (hs : s ∉ v.streams) {o : SplitterLog}
    (ho : o = .registered s ∨ o = .newStream s ∧ ofStream pending s ≠ []) :
    Sound { v with streams := v.streams ++ [s], log := v.log ++ [o] } pending := by
  have hid : o.streamId = s := by
    obtain rfl | ⟨rfl, -⟩ := ho <;> rfl
  have hnone : ∀ t, emitted [o] t = [] := by
    intro t
    obtain rfl | ⟨rfl, -⟩ := ho <;> rfl
  have habout : about v.log s = [] := by
    by_contra h
    exact hs ((hv.streams s).mpr h)
  refine ⟨?_, fun t => ?_, fun t => ⟨?_, ?_⟩⟩
  · rw [← List.concat_eq_append]
    exact List.Nodup.concat hs hv.nodup
  · rw [List.mem_append, List.mem_singleton]
    by_cases ht : s = t
    · simp [about_append_self (hid.trans ht), ht]
    · rw [about_append_ne (hid ▸ ht), hv.streams t]
      simp [Ne.symm ht]
  · rw [emitted_append, hnone, List.append_nil]
    exact (hv.demultiplexed t).exact
  · rw [emitted_append, hnone, List.append_nil]
    by_cases ht : s = t
    · subst ht
      rw [about_append_self hid, habout, hv.emitted_nil hs]
      obtain rfl | ⟨rfl, hp⟩ := ho
      · exact Or.inr (Or.inl rfl)
      · exact Or.inr (Or.inr ⟨Or.inr hp, rfl⟩)
    · rw [about_append_ne (hid ▸ ht)]
      exact (hv.demultiplexed t).announced

theorem Sound.registerStream (hv : Sound v pending) (s : BitVec 8) :
    Sound (v.registerStream s) pending := by
  unfold SplitterGate.registerStream
  split
  · exact hv
  · next hs => exact hv.open hs (Or.inl rfl)

theorem Sound.send (hv : Sound v pending) (m : StreamMessage) : Sound (v.send m) pending := by
  refine ⟨hv.nodup, hv.streams, fun s => ⟨?_, (hv.demultiplexed s).announced⟩⟩
  show emitted v.log s ++ ofStream pending s ++ ofStream (v.incoming ++ [m]) s =
    ofStream (v.written ++ [m]) s
  rw [ofStream_append, ofStream_append, ← (hv.demultiplexed s).exact,
    List.append_assoc _ _ (ofStream [m] s)]

theorem Sound.take (hv : Sound v pending) {rest : List StreamMessage}
    (hin : v.incoming = m :: rest) (hcalm : ofStream pending m.streamId = []) :
    Sound { v with incoming := rest } (m :: pending) := by
  refine ⟨hv.nodup, hv.streams, fun s => ?_⟩
  have hs := hv.demultiplexed s
  have hexact := hs.exact
  rw [hin, ofStream_cons] at hexact
  refine ⟨?_, ?_⟩
  · rw [← hexact, ofStream_cons]
    by_cases h : m.streamId = s
    · subst h
      simp [hcalm]
    · have hm : ofStream [m] s = [] := by simp [ofStream, h]
      simp [hm]
  · rw [ofStream_cons]
    obtain hnil | hreg | ⟨hne, hnew⟩ := hs.announced
    · exact Or.inl hnil
    · exact Or.inr (Or.inl hreg)
    · exact Or.inr (Or.inr ⟨hne.imp_right fun h => by simp [h], hnew⟩)

theorem Sound.putData (hv : Sound v (m :: pending)) (hs : m.streamId ∈ v.streams) :
    Sound (v.putData m.streamId m) pending := by
  have hone : ∀ s, emitted [SplitterLog.emitted m.streamId m] s = ofStream [m] s := by
    intro s
    by_cases h : m.streamId = s
    · simp [emitted, ofStream, h]
    · simp [emitted, ofStream, h]
  refine ⟨hv.nodup, fun s => ?_, fun s => ?_⟩
  · show s ∈ v.streams ↔ about (v.log ++ [.emitted m.streamId m]) s ≠ []
    by_cases h : m.streamId = s
    · rw [about_append_self (by exact h)]
      simp [← h, hs]
    · rw [about_append_ne (by exact h)]
      exact hv.streams s
  have hold := hv.demultiplexed s
  refine ⟨?_, ?_⟩
  · show emitted (v.log ++ [.emitted m.streamId m]) s ++ ofStream pending s ++
      ofStream v.incoming s = _
    rw [emitted_append, hone, List.append_assoc (emitted v.log s), ← ofStream_cons]
    exact hold.exact
  · simp only [SplitterGate.putData, emitted_append, hone]
    by_cases h : m.streamId = s
    · subst h
      have hm : ofStream [m] m.streamId = [m] := by simp [ofStream]
      rw [hm, about_append_self (by rfl), List.map_append]
      obtain hnil | hreg | ⟨-, hnew⟩ := hold.announced
      · exact absurd hnil ((hv.streams _).mp hs)
      · exact Or.inr (Or.inl (by rw [hreg]; rfl))
      · exact Or.inr (Or.inr ⟨Or.inl (by simp), by rw [hnew]; rfl⟩)
    · have hm : ofStream [m] s = [] := by simp [ofStream, h]
      have hannounced := hold.announced
      rw [ofStream_cons, hm, List.nil_append] at hannounced
      rw [hm, about_append_ne (by exact h), List.append_nil]
      exact hannounced

end SplitterGate

namespace SplitterFrame

def message : SplitterFrame → StreamMessage
  | .newStream _ m _ => m
  | .data _ m _ => m

def gates : SplitterFrame → List (BitVec 8)
  | .newStream _ _ gates => gates
  | .data _ _ gates => gates

def announced (y : SplitterSide) : SplitterFrame → Option StreamMessage
  | .newStream x m _ => if x = y then some m else none
  | .data _ _ _ => none

end SplitterFrame

namespace SplitterLink
open SplitterGate

def pending (w : SplitterLink) (x : SplitterSide) : List StreamMessage :=
  w.frames.filterMap (·.announced x)

/-- No packet of a stream reaches a side while its new stream event is being emitted there. -/
def Calm (w : SplitterLink) : SplitterEvent → Prop
  | .deliver x => ∀ m ∈ (w.side x).incoming.head?, ∀ n ∈ w.pending x, n.streamId ≠ m.streamId
  | _ => True

instance (w : SplitterLink) : (e : SplitterEvent) → Decidable (w.Calm e)
  | .deliver x => inferInstanceAs (Decidable (∀ m ∈ (w.side x).incoming.head?,
      ∀ n ∈ w.pending x, n.streamId ≠ m.streamId))
  | .register .. | .write .. | .ret => inferInstanceAs (Decidable True)

variable {w : SplitterLink} {x : SplitterSide} {m : StreamMessage} {gates : List (BitVec 8)}

/-- `handled` is a message that is taken from the channel of the side and neither announced nor
emitted yet. -/
structure SoundLink (w : SplitterLink) (x : SplitterSide) (handled : List StreamMessage) :
    Prop where
  sides : ∀ y, Sound (w.side y) (if y = x then handled ++ w.pending y else w.pending y)
  streams : ∀ y, ∀ n ∈ w.pending y, n.streamId ∈ (w.side y).streams
  gates : ∀ f ∈ w.frames, f.message.streamId ∉ f.gates

theorem side_modify (f : SplitterGate → SplitterGate) (y : SplitterSide) :
    (w.modify x f).side y = if y = x then f (w.side y) else w.side y := by
  unfold SplitterLink.modify
  by_cases h : y = x
  · subst h
    simp
  · simp [h]

theorem side_push (f : SplitterFrame) (y : SplitterSide) : (w.push f).side y = w.side y := rfl

theorem pending_modify (f : SplitterGate → SplitterGate) (y : SplitterSide) :
    (w.modify x f).pending y = w.pending y := rfl

theorem pending_cons (f : SplitterFrame) (frames : List SplitterFrame) (y : SplitterSide) :
    pending { w with frames := f :: frames } y =
      (f.announced y).toList ++ pending { w with frames := frames } y := by
  unfold pending
  rw [List.filterMap_cons]
  cases f.announced y <;> rfl

theorem pending_push (f : SplitterFrame) (y : SplitterSide) :
    (w.push f).pending y = (f.announced y).toList ++ w.pending y := pending_cons f w.frames y

theorem SoundLink.modify (hw : SoundLink w x []) (y : SplitterSide)
    {f : SplitterGate → SplitterGate} (hf : ∀ v pending, Sound v pending → Sound (f v) pending)
    (hs : ∀ v, v.streams ⊆ (f v).streams) : SoundLink (w.modify y f) x [] := by
  refine ⟨fun z => ?_, fun z n hn => ?_, hw.gates⟩
  · have hz := hw.sides z
    rw [side_modify]
    split
    · exact hf _ _ hz
    · exact hz
  · have hz := hw.streams z n hn
    rw [side_modify]
    split
    · exact hs _ hz
    · exact hz

theorem SoundLink.emitData (hw : SoundLink w x [m]) (hs : m.streamId ∈ (w.side x).streams)
    (hg : m.streamId ∉ gates) : SoundLink (w.emitData x m m.streamId gates) x [] := by
  have hpending : ∀ z, (w.emitData x m m.streamId gates).pending z = w.pending z :=
    fun z => pending_push _ z
  unfold SplitterLink.emitData at hpending ⊢
  refine ⟨fun z => ?_, fun z n hn => ?_, fun f hf => ?_⟩
  · have hz := hw.sides z
    rw [hpending, side_push, side_modify]
    by_cases h : z = x
    · subst h
      rw [if_pos rfl] at hz ⊢
      rw [if_pos rfl]
      exact hz.putData hs
    · rw [if_neg h] at hz ⊢
      rwa [if_neg h]
  · rw [hpending] at hn
    rw [side_push, side_modify]
    split <;> exact hw.streams z n hn
  · rcases List.mem_cons.mp hf with rfl | hf
    · exact hg
    · exact hw.gates f hf

theorem readSubscriptions_of_not_mem (hg : m.streamId ∉ gates) :
    w.readSubscriptions x m gates = w := by
  induction gates with
  | nil => rfl
  | cons gate gates ih =>
    have hne : gate ≠ m.streamId := fun h => hg (h ▸ List.mem_cons_self)
    rw [readSubscriptions, if_neg hne]
    exact ih fun h => hg (List.mem_cons_of_mem _ h)

theorem readSubscriptions_of_mem (hn : gates.Nodup) (hg : m.streamId ∈ gates) :
    ∃ rest, m.streamId ∉ rest ∧
      w.readSubscriptions x m gates = w.emitData x m m.streamId rest := by
  induction gates with
  | nil => cases hg
  | cons gate gates ih =>
    obtain ⟨hnot, hn⟩ := List.nodup_cons.mp hn
    by_cases h : gate = m.streamId
    · subst h
      exact ⟨gates, hnot, if_pos rfl⟩
    · obtain ⟨rest, hrest, he⟩ := ih hn ((List.mem_cons.mp hg).resolve_left (Ne.symm h))
      exact ⟨rest, hrest, by rw [readSubscriptions, if_neg h, he]⟩

theorem SoundLink.messageNotify (hw : SoundLink w x [m]) : SoundLink (w.messageNotify x m) x [] := by
  have hx := hw.sides x
  rw [if_pos rfl] at hx
  unfold SplitterLink.messageNotify
  dsimp only
  split
  · next hs =>
    obtain ⟨rest, hrest, he⟩ := readSubscriptions_of_mem (w := w) (x := x) hx.nodup hs
    rw [he]
    exact hw.emitData hs hrest
  · next hs =>
    have hopen : Sound ((w.side x).announce m.streamId) (m :: w.pending x) :=
      hx.open hs (Or.inr ⟨rfl, by simp [ofStream]⟩)
    refine ⟨fun z => ?_, fun z n hn => ?_, fun f hf => ?_⟩
    · have hz := hw.sides z
      rw [pending_push, pending_modify, side_push, side_modify]
      by_cases h : z = x
      · subst h
        simpa [SplitterFrame.announced] using hopen
      · simpa [SplitterFrame.announced, h, Ne.symm h] using hz
    · rw [pending_push, pending_modify] at hn
      rw [side_push, side_modify]
      by_cases h : z = x
      · subst h
        rw [if_pos rfl]
        rcases List.mem_append.mp hn with hn | hn
        · have hn : n = m := by simpa [SplitterFrame.announced, eq_comm] using hn
          exact hn ▸ List.mem_append_right _ List.mem_cons_self
        · exact List.mem_append_left _ (hw.streams z n hn)
      · rw [if_neg h]
        refine hw.streams z n ?_
        simpa [SplitterFrame.announced, Ne.symm h] using hn
    · rcases List.mem_cons.mp hf with rfl | hf
      · exact hs
      · exact hw.gates f hf

theorem SoundLink.swap (hw : SoundLink w x []) (y : SplitterSide) : SoundLink w y [] := by
  refine ⟨fun z => ?_, hw.streams, hw.gates⟩
  have hz := hw.sides z
  rwa [List.nil_append, ite_self] at hz ⊢

theorem SoundLink.deliver (hw : SoundLink w x []) {rest : List StreamMessage}
    (hin : (w.side x).incoming = m :: rest) (hcalm : ∀ n ∈ w.pending x, n.streamId ≠ m.streamId) :
    SoundLink (w.modify x fun v => { v with incoming := rest }) x [m] := by
  refine ⟨fun z => ?_, fun z n hn => ?_, hw.gates⟩
  · have hz := hw.sides z
    rw [List.nil_append, ite_self] at hz
    rw [side_modify]
    by_cases h : z = x
    · subst h
      rw [if_pos rfl, if_pos rfl]
      refine hz.take hin (List.filter_eq_nil_iff.mpr fun n hn => ?_)
      simpa using hcalm n hn
    · rw [if_neg h, if_neg h]
      exact hz
  · have hz := hw.streams z n hn
    rw [side_modify]
    split <;> exact hz

theorem SoundLink.resume {f : SplitterFrame} {frames : List SplitterFrame} (hw : SoundLink w x [])
    (hf : w.frames = f :: frames) : SoundLink ({ w with frames := frames }.resume f) x [] := by
  have hgate := hw.gates f (hf ▸ List.mem_cons_self)
  have hrest : ∀ g ∈ frames, g.message.streamId ∉ g.gates :=
    fun g hg => hw.gates g (hf ▸ List.mem_cons_of_mem _ hg)
  have hpending : ∀ z, w.pending z = (f.announced z).toList ++
      ({ w with frames := frames } : SplitterLink).pending z := by
    intro z
    rw [← pending_cons, ← hf]
  have hstreams : ∀ z, ∀ n ∈ ({ w with frames := frames } : SplitterLink).pending z,
      n.streamId ∈ (w.side z).streams :=
    fun z n hn => hw.streams z n (hpending z ▸ List.mem_append_right _ hn)
  cases f with
  | newStream y m gates =>
    have hgate : m.streamId ∉ gates := hgate
    refine SoundLink.swap (x := y) (SoundLink.emitData ⟨fun z => ?_, hstreams, hrest⟩ ?_ hgate) x
    · have hz := hw.sides z
      rw [List.nil_append, ite_self, hpending] at hz
      by_cases h : z = y
      · subst h
        rw [if_pos rfl]
        simpa [SplitterFrame.announced] using hz
      · rw [if_neg h]
        simpa [SplitterFrame.announced, Ne.symm h] using hz
    · refine hw.streams y m ?_
      rw [hpending]
      exact List.mem_append_left _ (by simp [SplitterFrame.announced])
  | data y m gates =>
    have hgate : m.streamId ∉ gates := hgate
    rw [SplitterLink.resume, readSubscriptions_of_not_mem hgate]
    refine ⟨fun z => ?_, hstreams, hrest⟩
    have hz := hw.sides z
    rw [hpending] at hz
    exact hz

theorem soundLink_initial : SoundLink {} x [] := by
  refine ⟨fun y => ?_, fun _ _ hn => absurd hn List.not_mem_nil,
    fun _ hf => absurd hf List.not_mem_nil⟩
  rw [List.nil_append, ite_self]
  exact ⟨List.nodup_nil, fun s => ⟨fun h => absurd h List.not_mem_nil, fun h => absurd rfl h⟩,
    fun s => ⟨rfl, Or.inl rfl⟩⟩

theorem SoundLink.next (hw : SoundLink w x []) (e : SplitterEvent) (he : w.Calm e) :
    SoundLink (w.next e) x [] := by
  cases e with
  | register y s =>
    refine hw.modify y (fun v _ hv => hv.registerStream s) fun v => ?_
    unfold SplitterGate.registerStream
    split
    · exact List.Subset.refl _
    · exact List.subset_append_left _ _
  | write y s data =>
    simp only [SplitterLink.next]
    split
    · exact hw.modify y.other (fun v _ hv => hv.send ⟨s, data⟩) fun v => List.Subset.refl _
    · exact hw
  | deliver y =>
    simp only [SplitterLink.next]
    split
    · exact hw
    · next m rest hin =>
      have hcalm : ∀ n ∈ w.pending y, n.streamId ≠ m.streamId := he m (by rw [hin]; rfl)
      exact ((hw.swap y).deliver hin hcalm).messageNotify.swap x
  | ret =>
    simp only [SplitterLink.next]
    split
    · exact hw
    · next f frames hf => exact hw.resume hf

end SplitterLink
end AetherClient
