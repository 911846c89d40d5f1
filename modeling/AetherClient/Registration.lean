import AetherClient.Actions
import AetherClient.Runs
import Mathlib.Data.List.Basic
import Mathlib.Logic.Function.Basic

set_option autoImplicit false

/-!
# Registration of a client

The registration asks a server for its key, for the parameters of a proof of work, for the
registration itself and for the servers of the cloud. An answer comes with the id of its request:
packing a request stores a callback for its id, and the first answer with this id runs the
callback and removes it. The handlers of the four answers set the state of the action without
looking at it, and `Update` does what the state says.

The key request is repeated if no answer came in time. `Crypto` stands for what the messages
contain and for the check of signatures.
-/
namespace AetherClient

inductive RegistrationState where
  | connection
  | waitingConnection
  | connected
  | getKeys
  | waitKeys
  | getPowParams
  | makeRegistration
  | requestCloudResolving
  | registered
  | registrationFailed
  deriving DecidableEq, Repr

inductive RegistrationRequest where
  | getAsymmetricPublicKey
  | requestProofOfWorkData
  | finish
  | resolveServers
  deriving DecidableEq, Repr

/-- What the callbacks extract from the bytes of an answer, and `CryptoSignVerify` with the
registration's `sign_pk_`. -/
structure RegistrationCrypto (Data Key Sign Uid Server : Type) where
  signedKey : Data → Sign × Key
  globalKey : Data → Sign × Key
  uid : Data → Uid
  ephemeralUid : Data → Uid
  servers : Data → List Server
  verify : Sign → Key → Bool

inductive RegistrationStage where
  | serverKey
  | proofOfWork
  | written
  | confirmed
  | configured
  deriving DecidableEq, Repr

inductive RegistrationMark (Key Sign Uid Server : Type) where
  | keyAccepted (sign : Sign) (key : Key)
  | powAccepted (sign : Sign) (globalKey : Key)
  | registrationWritten
  | confirmed
  | configured (uid ephemeralUid : Option Uid) (masterKey : Option Key) (servers : List Server)

inductive RegistrationEvent (Data Key : Type) where
  /-- `Update`, with the time in microseconds and the key that is generated if one is needed. -/
  | update (currentTime : ℕ) (generated : Key)
  | result (requestId : BitVec 16) (data : Data)
  | genRequestId
  | connectionSuccess
  | connectionError
  | keyWriteError
  | regWriteError

structure Registration (Key Sign Uid Server : Type) where
  serversLeft : ℕ
  requestId : BitVec 16
  state : StateMachine RegistrationState := ⟨.connection, true⟩
  lastRequestTime : ℕ := 0
  masterKey : Option Key := none
  uid : Option Uid := none
  ephemeralUid : Option Uid := none
  callbacks : BitVec 16 → Option RegistrationRequest := fun _ => none
  connectionSuccessSubscription : Bool := false
  connectionErrorSubscription : Bool := false
  keyWriteSubscription : Bool := false
  regWriteSubscription : Bool := false
  finished : Bool := false
  log : List (RegistrationMark Key Sign Uid Server) := []

namespace RegistrationMark
variable {Data Key Sign Uid Server : Type}

def stage : RegistrationMark Key Sign Uid Server → RegistrationStage
  | keyAccepted _ _ => .serverKey
  | powAccepted _ _ => .proofOfWork
  | registrationWritten => .written
  | confirmed => .confirmed
  | configured _ _ _ _ => .configured

def Signed (c : RegistrationCrypto Data Key Sign Uid Server) :
    RegistrationMark Key Sign Uid Server → Prop
  | keyAccepted sign key => c.verify sign key = true
  | powAccepted sign key => c.verify sign key = true
  | _ => True

end RegistrationMark

namespace Registration
variable {Data Key Sign Uid Server : Type}

def responseTimeout : ℕ := 20000000

def set (w : Registration Key Sign Uid Server) (s : RegistrationState) :
    Registration Key Sign Uid Server :=
  { w with state := w.state.set s }

def mark (w : Registration Key Sign Uid Server) (m : RegistrationMark Key Sign Uid Server) :
    Registration Key Sign Uid Server :=
  { w with log := w.log ++ [m] }

/-- Packs a request with a new id; a callback that the id still has stays. -/
def request (w : Registration Key Sign Uid Server) (r : RegistrationRequest) :
    Registration Key Sign Uid Server :=
  { w with
    requestId := w.requestId + 1
    callbacks := match w.callbacks w.requestId with
      | none => Function.update w.callbacks w.requestId (some r)
      | some _ => w.callbacks }

def iterateConnection (w : Registration Key Sign Uid Server) : Registration Key Sign Uid Server :=
  if w.serversLeft = 0 then w.set .registrationFailed
  else
    { w with
      serversLeft := w.serversLeft - 1
      connectionSuccessSubscription := true
      connectionErrorSubscription := true }.set .waitingConnection

def getKeys (w : Registration Key Sign Uid Server) (currentTime : ℕ) :
    Registration Key Sign Uid Server :=
  { (w.set .waitKeys).request .getAsymmetricPublicKey with
    keyWriteSubscription := true, lastRequestTime := currentTime }

def requestPowParams (w : Registration Key Sign Uid Server) : Registration Key Sign Uid Server :=
  { w.request .requestProofOfWorkData with regWriteSubscription := true }

def makeRegistration (w : Registration Key Sign Uid Server) (generated : Key) :
    Registration Key Sign Uid Server :=
  { (w.mark .registrationWritten).request .finish with
    masterKey := some generated, regWriteSubscription := true }

def resolveCloud (w : Registration Key Sign Uid Server) : Registration Key Sign Uid Server :=
  { w.request .resolveServers with regWriteSubscription := true }

def perform (w : Registration Key Sign Uid Server) (currentTime : ℕ) (generated : Key) :
    RegistrationState → Registration Key Sign Uid Server
  | .connection => w.iterateConnection
  | .connected => w.set .getKeys
  | .getKeys => w.getKeys currentTime
  | .getPowParams => w.requestPowParams
  | .makeRegistration => w.makeRegistration generated
  | .requestCloudResolving => w.resolveCloud
  | .registered => { w with finished := true }
  | .registrationFailed => { w with finished := true }
  | .waitingConnection => w
  | .waitKeys => w

def waitKeys (w : Registration Key Sign Uid Server) (currentTime : ℕ) :
    Registration Key Sign Uid Server :=
  if w.lastRequestTime + responseTimeout < currentTime then w.set .getKeys else w

def wait (w : Registration Key Sign Uid Server) (currentTime : ℕ) :
    Registration Key Sign Uid Server :=
  if w.state.state = .waitKeys then w.waitKeys currentTime else w

def update (w : Registration Key Sign Uid Server) (currentTime : ℕ) (generated : Key) :
    Registration Key Sign Uid Server :=
  if w.state.changed then
    ({ w with state := w.state.acquire }.perform currentTime generated w.state.state).wait
      currentTime
  else
    w.wait currentTime

variable (c : RegistrationCrypto Data Key Sign Uid Server)

def onGetKeysResponse (w : Registration Key Sign Uid Server) (data : Data) :
    Registration Key Sign Uid Server :=
  let signedKey := c.signedKey data
  if ¬c.verify signedKey.1 signedKey.2 then w.set .registrationFailed
  else (w.mark (.keyAccepted signedKey.1 signedKey.2)).set .getPowParams

def onResponsePowParams (w : Registration Key Sign Uid Server) (data : Data) :
    Registration Key Sign Uid Server :=
  let globalKey := c.globalKey data
  if ¬c.verify globalKey.1 globalKey.2 then w.set .registrationFailed
  else (w.mark (.powAccepted globalKey.1 globalKey.2)).set .makeRegistration

def onConfirmRegistration (w : Registration Key Sign Uid Server) (data : Data) :
    Registration Key Sign Uid Server :=
  { w.mark .confirmed with
    ephemeralUid := some (c.ephemeralUid data), uid := some (c.uid data) }.set
      .requestCloudResolving

def onResolveCloudResponse (w : Registration Key Sign Uid Server) (data : Data) :
    Registration Key Sign Uid Server :=
  (w.mark (.configured w.uid w.ephemeralUid w.masterKey (c.servers data))).set .registered

def callback (w : Registration Key Sign Uid Server) (data : Data) :
    RegistrationRequest → Registration Key Sign Uid Server
  | .getAsymmetricPublicKey => w.onGetKeysResponse c data
  | .requestProofOfWorkData => w.onResponsePowParams c data
  | .finish => w.onConfirmRegistration c data
  | .resolveServers => w.onResolveCloudResponse c data

def setSendResultResponse (w : Registration Key Sign Uid Server) (requestId : BitVec 16)
    (data : Data) : Registration Key Sign Uid Server :=
  match w.callbacks requestId with
  | none => w
  | some r =>
    let w' := w.callback c data r
    { w' with callbacks := Function.update w'.callbacks requestId none }

def handle (w : Registration Key Sign Uid Server) :
    RegistrationEvent Data Key → Registration Key Sign Uid Server
  | .update currentTime generated => w.update currentTime generated
  | .result requestId data => w.setSendResultResponse c requestId data
  | .genRequestId => { w with requestId := w.requestId + 1 }
  | .connectionSuccess =>
    if w.connectionSuccessSubscription then
      { w with connectionSuccessSubscription := false }.set .connected
    else w
  | .connectionError =>
    if w.connectionErrorSubscription then
      { w with connectionErrorSubscription := false }.set .connection
    else w
  | .keyWriteError =>
    if w.keyWriteSubscription then { w with keyWriteSubscription := false }.set .connection else w
  | .regWriteError =>
    if w.regWriteSubscription then
      { w with regWriteSubscription := false }.set .registrationFailed
    else w

def step (w : Registration Key Sign Uid Server) (e : RegistrationEvent Data Key) :
    Option (Registration Key Sign Uid Server) :=
  some (if w.finished then w else w.handle c e)

def stages : List RegistrationStage := [.serverKey, .proofOfWork, .written, .confirmed]

def Reached (n : ℕ) (log : List (RegistrationMark Key Sign Uid Server)) : Prop :=
  (stages.take n).Sublist (log.map RegistrationMark.stage)

structure InOrder (log : List (RegistrationMark Key Sign Uid Server)) : Prop where
  signed : ∀ m ∈ log, m.Signed c
  after : ∀ before m rest, log = before ++ m :: rest → m.stage = .configured →
    stages.Sublist (before.map RegistrationMark.stage)

def configurations (w : Registration Key Sign Uid Server) : ℕ :=
  w.log.countP fun m => m.stage = .configured

/-- What would make a registration leave its state: the answer to a request that waits for one,
an event of the connection, or a failed write. -/
def Reacts (w : Registration Key Sign Uid Server) : RegistrationEvent Data Key → Prop
  | .update _ _ => False
  | .result requestId _ => w.callbacks requestId ≠ none
  | .genRequestId => False
  | .connectionSuccess => w.connectionSuccessSubscription = true
  | .connectionError => w.connectionErrorSubscription = true
  | .keyWriteError => w.keyWriteSubscription = true
  | .regWriteError => w.regWriteSubscription = true

/-- A registered client gets nothing more to react to before `Update` reports the end. -/
def Undisturbed (w : Registration Key Sign Uid Server) (e : RegistrationEvent Data Key) : Prop :=
  w.state.state = .registered → ¬w.Reacts e

instance (w : Registration Key Sign Uid Server) (e : RegistrationEvent Data Key) :
    Decidable (w.Reacts e) :=
  match e with
  | .update _ _ | .genRequestId => inferInstanceAs (Decidable False)
  | .result requestId _ => inferInstanceAs (Decidable (w.callbacks requestId ≠ none))
  | .connectionSuccess | .connectionError | .keyWriteError | .regWriteError =>
    inferInstanceAs (Decidable (_ = true))

instance (w : Registration Key Sign Uid Server) (e : RegistrationEvent Data Key) :
    Decidable (w.Undisturbed e) :=
  inferInstanceAs (Decidable (_ → _))

section Order
variable {log : List (RegistrationMark Key Sign Uid Server)}
  {m : RegistrationMark Key Sign Uid Server} {n : ℕ}

theorem Reached.append (h : Reached n log) (m : RegistrationMark Key Sign Uid Server) :
    Reached n (log ++ [m]) := by
  unfold Reached
  rw [List.map_append]
  exact h.trans (List.sublist_append_left _ _)

theorem Reached.next (h : Reached n log) (hm : stages[n]? = some m.stage) :
    Reached (n + 1) (log ++ [m]) := by
  unfold Reached
  rw [List.map_append, List.take_add_one, hm]
  exact List.Sublist.append h (List.Sublist.refl _)

theorem reached_zero : Reached 0 log := List.nil_sublist _

variable {c}

theorem InOrder.append (h : InOrder c log) (hm : m.Signed c)
    (hconf : m.stage = .configured → Reached 4 log) : InOrder c (log ++ [m]) where
  signed := by
    intro k hk
    obtain hk | hk := List.mem_append.mp hk
    · exact h.signed k hk
    · rw [List.mem_singleton.mp hk]
      exact hm
  after := by
    intro before k rest heq hk
    -- either the new mark is the configuration, or it comes later
    obtain rfl | ⟨rest, x, rfl⟩ := List.eq_nil_or_concat rest
    · obtain ⟨rfl, hlast⟩ := List.append_inj' heq rfl
      cases hlast
      exact hconf hk
    · rw [List.concat_eq_append, ← List.cons_append, ← List.append_assoc] at heq
      exact h.after before k rest (List.append_inj' heq rfl).1 hk

end Order

def due : RegistrationState → ℕ
  | .getPowParams => 1
  | .makeRegistration => 2
  | .requestCloudResolving => 4
  | _ => 0

def requestDue : RegistrationRequest → ℕ
  | .getAsymmetricPublicKey => 0
  | .requestProofOfWorkData => 1
  | .finish => 3
  | .resolveServers => 4

structure Inv (w : Registration Key Sign Uid Server) : Prop where
  ordered : InOrder c w.log
  current : Reached (due w.state.state) w.log
  pending : ∀ id r, w.callbacks id = some r → Reached (requestDue r) w.log

section Steps
variable {c} {w : Registration Key Sign Uid Server}

theorem Inv.set (hw : Inv c w) (s : RegistrationState) (hs : Reached (due s) w.log) :
    Inv c (w.set s) where
  ordered := hw.ordered
  current := by
    show Reached (due (w.state.set s).state) w.log
    rw [StateMachine.state_set]
    exact hs
  pending := hw.pending

theorem Inv.mark (hw : Inv c w) (m : RegistrationMark Key Sign Uid Server) (hm : m.Signed c)
    (hconf : m.stage = .configured → Reached 4 w.log) : Inv c (w.mark m) where
  ordered := hw.ordered.append hm hconf
  current := hw.current.append m
  pending := fun id r h => (hw.pending id r h).append m

theorem Inv.request (hw : Inv c w) (r : RegistrationRequest) (hr : Reached (requestDue r) w.log) :
    Inv c (w.request r) where
  ordered := hw.ordered
  current := hw.current
  pending := by
    intro id r' h
    cases hold : w.callbacks w.requestId with
    | none =>
      simp only [Registration.request, hold] at h
      by_cases hid : id = w.requestId
      · rw [hid, Function.update_self] at h
        cases h
        exact hr
      · rw [Function.update_of_ne hid] at h
        exact hw.pending id r' h
    | some _ =>
      simp only [Registration.request, hold] at h
      exact hw.pending id r' h

theorem Inv.perform (hw : Inv c w) (currentTime : ℕ) (generated : Key) :
    Inv c ({ w with state := w.state.acquire }.perform currentTime generated w.state.state) := by
  have hacq : Inv c { w with state := w.state.acquire } := ⟨hw.ordered, hw.current, hw.pending⟩
  have hdue := hw.current
  cases hs : w.state.state with
  | connection =>
    simp only [Registration.perform, iterateConnection]
    split
    case isTrue => exact hacq.set .registrationFailed reached_zero
    case isFalse =>
      refine Inv.set ?_ .waitingConnection reached_zero
      exact ⟨hw.ordered, hw.current, hw.pending⟩
  | connected => exact hacq.set .getKeys reached_zero
  | getKeys =>
    have hreq := (hacq.set .waitKeys reached_zero).request .getAsymmetricPublicKey reached_zero
    exact ⟨hreq.ordered, hreq.current, hreq.pending⟩
  | getPowParams =>
    rw [hs] at hdue
    have hreq := hacq.request .requestProofOfWorkData hdue
    exact ⟨hreq.ordered, hreq.current, hreq.pending⟩
  | makeRegistration =>
    rw [hs] at hdue
    have hmark := hacq.mark .registrationWritten trivial fun h => by cases h
    have hreq := hmark.request .finish (hdue.next rfl)
    exact ⟨hreq.ordered, hreq.current, hreq.pending⟩
  | requestCloudResolving =>
    rw [hs] at hdue
    have hreq := hacq.request .resolveServers hdue
    exact ⟨hreq.ordered, hreq.current, hreq.pending⟩
  | registered => exact ⟨hw.ordered, hw.current, hw.pending⟩
  | registrationFailed => exact ⟨hw.ordered, hw.current, hw.pending⟩
  | waitingConnection => exact hacq
  | waitKeys => exact hacq

theorem Inv.wait (hw : Inv c w) (currentTime : ℕ) : Inv c (w.wait currentTime) := by
  unfold Registration.wait waitKeys
  split
  · split
    · exact hw.set .getKeys reached_zero
    · exact hw
  · exact hw

theorem Inv.update (hw : Inv c w) (currentTime : ℕ) (generated : Key) :
    Inv c (w.update currentTime generated) := by
  unfold Registration.update
  split
  · exact (hw.perform currentTime generated).wait currentTime
  · exact hw.wait currentTime

theorem Inv.callback (hw : Inv c w) (data : Data) {r : RegistrationRequest}
    (hr : Reached (requestDue r) w.log) : Inv c (w.callback c data r) := by
  cases r with
  | getAsymmetricPublicKey =>
    simp only [Registration.callback, onGetKeysResponse]
    split
    case isTrue => exact hw.set .registrationFailed reached_zero
    case isFalse h =>
      have hmark := hw.mark (.keyAccepted _ _) (not_not.mp h) fun h => by cases h
      exact hmark.set .getPowParams (hr.next rfl)
  | requestProofOfWorkData =>
    simp only [Registration.callback, onResponsePowParams]
    split
    case isTrue => exact hw.set .registrationFailed reached_zero
    case isFalse h =>
      have hmark := hw.mark (.powAccepted _ _) (not_not.mp h) fun h => by cases h
      exact hmark.set .makeRegistration (hr.next rfl)
  | finish =>
    have hmark := hw.mark .confirmed trivial fun h => by cases h
    refine Inv.set ?_ .requestCloudResolving (hr.next rfl)
    exact ⟨hmark.ordered, hmark.current, hmark.pending⟩
  | resolveServers =>
    exact (hw.mark (.configured _ _ _ _) trivial fun _ => hr).set .registered reached_zero

theorem Inv.handle (hw : Inv c w) (e : RegistrationEvent Data Key) : Inv c (w.handle c e) := by
  cases e with
  | update currentTime generated => exact hw.update currentTime generated
  | result requestId data =>
    cases hr : w.callbacks requestId with
    | none =>
      simp only [Registration.handle, setSendResultResponse, hr]
      exact hw
    | some r =>
      simp only [Registration.handle, setSendResultResponse, hr]
      have hcall := hw.callback data (hw.pending requestId r hr)
      refine ⟨hcall.ordered, hcall.current, ?_⟩
      intro id r' h
      change Function.update (w.callback c data r).callbacks requestId none id = some r' at h
      by_cases hid : id = requestId
      · rw [hid, Function.update_self] at h
        cases h
      · rw [Function.update_of_ne hid] at h
        exact hcall.pending id r' h
  | genRequestId => exact ⟨hw.ordered, hw.current, hw.pending⟩
  | connectionSuccess =>
    simp only [Registration.handle]
    split
    · refine Inv.set ?_ .connected reached_zero
      exact ⟨hw.ordered, hw.current, hw.pending⟩
    · exact hw
  | connectionError | keyWriteError =>
    simp only [Registration.handle]
    split
    · refine Inv.set ?_ .connection reached_zero
      exact ⟨hw.ordered, hw.current, hw.pending⟩
    · exact hw
  | regWriteError =>
    simp only [Registration.handle]
    split
    · refine Inv.set ?_ .registrationFailed reached_zero
      exact ⟨hw.ordered, hw.current, hw.pending⟩
    · exact hw

theorem Inv.step (hw : Inv c w) (e : RegistrationEvent Data Key) :
    ∃ w', w.step c e = some w' ∧ Inv c w' := by
  refine ⟨_, rfl, ?_⟩
  split
  · exact hw
  · exact hw.handle e

@[simp] theorem configurations_mark (w : Registration Key Sign Uid Server)
    (m : RegistrationMark Key Sign Uid Server) :
    (w.mark m).configurations = w.configurations + if m.stage = .configured then 1 else 0 := by
  simp [configurations, mark, List.countP_append, List.countP_singleton]

theorem configurations_update (currentTime : ℕ) (generated : Key) :
    (w.update currentTime generated).configurations = w.configurations := by
  have hwait : ∀ v : Registration Key Sign Uid Server,
      (v.wait currentTime).configurations = v.configurations := by
    intro v
    unfold wait waitKeys
    split
    · split <;> rfl
    · rfl
  unfold update
  split
  · rw [hwait]
    cases w.state.state with
    | connection =>
      simp only [perform, iterateConnection]
      split <;> rfl
    | makeRegistration => exact configurations_mark w .registrationWritten
    | _ => rfl
  · exact hwait w

theorem configurations_handle (e : RegistrationEvent Data Key) :
    (w.handle c e).configurations = w.configurations ∨
      (w.handle c e).configurations = w.configurations + 1 ∧
        (w.handle c e).state.state = .registered := by
  cases e with
  | update currentTime generated => exact .inl (configurations_update currentTime generated)
  | result requestId data =>
    simp only [handle, setSendResultResponse]
    cases w.callbacks requestId with
    | none => exact .inl rfl
    | some r =>
      cases r with
      | getAsymmetricPublicKey =>
        left
        simp only [callback, onGetKeysResponse]
        split
        · rfl
        · exact configurations_mark w _
      | requestProofOfWorkData =>
        left
        simp only [callback, onResponsePowParams]
        split
        · rfl
        · exact configurations_mark w _
      | finish => exact .inl (configurations_mark w .confirmed)
      | resolveServers =>
        right
        exact ⟨configurations_mark w (.configured _ _ _ _), StateMachine.state_set _ _⟩
  | genRequestId => exact .inl rfl
  | connectionSuccess | connectionError | keyWriteError | regWriteError =>
    left
    simp only [handle]
    split <;> rfl

theorem registered_handle {e : RegistrationEvent Data Key} (hs : w.state.state = .registered)
    (he : ¬w.Reacts e) :
    (w.handle c e).configurations = w.configurations ∧
      (w.handle c e).state.state = .registered := by
  cases e with
  | update currentTime generated =>
    refine ⟨configurations_update currentTime generated, ?_⟩
    simp only [handle, update, hs]
    split <;> simp [perform, wait, hs]
  | result requestId data =>
    have hnone : w.callbacks requestId = none := not_not.mp he
    simp only [handle, setSendResultResponse, hnone, true_and]
    exact hs
  | genRequestId => exact ⟨rfl, hs⟩
  | connectionSuccess | connectionError | keyWriteError | regWriteError =>
    simp only [Reacts] at he
    simp only [handle, if_neg he, true_and]
    exact hs

def ConfiguredOnce (w : Registration Key Sign Uid Server) : Prop :=
  w.configurations = 0 ∨ w.configurations = 1 ∧ w.state.state = .registered

theorem ConfiguredOnce.handle (hw : w.ConfiguredOnce) {e : RegistrationEvent Data Key}
    (he : w.Undisturbed e) : (w.handle c e).ConfiguredOnce := by
  by_cases hs : w.state.state = .registered
  · obtain ⟨hcount, hstate⟩ := registered_handle (c := c) hs (he hs)
    rw [ConfiguredOnce, hcount]
    exact hw.imp id fun h => ⟨h.1, hstate⟩
  · have hzero : w.configurations = 0 := hw.resolve_right fun h => hs h.2
    rw [ConfiguredOnce]
    obtain hcount | ⟨hcount, hstate⟩ := configurations_handle (c := c) (w := w) e
    · exact .inl (hcount.trans hzero)
    · exact .inr ⟨by rw [hcount, hzero], hstate⟩

end Steps

/-- In every run the configuration comes after the other stages. If nothing disturbs a registered
client, it is set at most once. -/
theorem configured_in_order (servers : ℕ) (id : BitVec 16)
    (events : List (RegistrationEvent Data Key)) :
    ∃ w : Registration Key Sign Uid Server,
      Runs.run (step c) { serversLeft := servers, requestId := id } events = some w ∧
      InOrder c w.log ∧
      (Runs.Along (step c) Undisturbed
        ({ serversLeft := servers, requestId := id } : Registration Key Sign Uid Server) events →
        w.configurations ≤ 1) := by
  have hstart : Inv c ({ serversLeft := servers, requestId := id } :
      Registration Key Sign Uid Server) := by
    refine ⟨⟨List.forall_mem_nil _, ?_⟩, reached_zero, ?_⟩
    · intro before m rest heq
      simp at heq
    · intro _ _ h
      cases h
  obtain ⟨w, hrun, hw⟩ := Runs.run_invariant (I := Inv c) (P := fun _ _ => True)
    (fun w e hw _ => hw.step e) hstart
    (Runs.Along.of_forall fun (_ : RegistrationEvent Data Key) (_ : _ ∈ events) _ => trivial)
  refine ⟨w, hrun, hw.ordered, ?_⟩
  intro halong
  have honce : ConfiguredOnce w := by
    refine Runs.run_preserves ?_ (.inl rfl) halong hrun
    intro u e u' hu he hstep
    cases hstep
    split
    · exact hu
    · exact hu.handle he
  obtain h | h := honce
  · omega
  · omega

def acceptingCrypto : RegistrationCrypto Unit Unit Unit Unit Unit :=
  ⟨fun _ => ((), ()), fun _ => ((), ()), fun _ => (), fun _ => (), fun _ => [], fun _ _ => true⟩

/-- Each request is answered once, and the end is reported. -/
theorem configured_in_order_once :
    Runs.Along (step acceptingCrypto) Undisturbed { serversLeft := 1, requestId := 1 }
      [.update 0 (), .connectionSuccess, .update 1 (), .update 2 (), .result 1 (), .update 3 (),
        .result 2 (), .update 4 (), .result 3 (), .update 5 (), .result 4 (), .update 6 ()] ∧
    ∃ w, Runs.run (step acceptingCrypto) { serversLeft := 1, requestId := 1 }
      [.update 0 (), .connectionSuccess, .update 1 (), .update 2 (), .result 1 (), .update 3 (),
        .result 2 (), .update 4 (), .result 3 (), .update 5 (), .result 4 (), .update 6 ()] =
        some w ∧
      InOrder acceptingCrypto w.log ∧ w.configurations = 1 := by
  have halong : Runs.Along (step acceptingCrypto) Undisturbed
      { serversLeft := 1, requestId := 1 }
      [.update 0 (), .connectionSuccess, .update 1 (), .update 2 (), .result 1 (), .update 3 (),
        .result 2 (), .update 4 (), .result 3 (), .update 5 (), .result 4 (), .update 6 ()] := by
    decide +kernel
  obtain ⟨w, hrun, hordered, honce⟩ := configured_in_order acceptingCrypto 1 1
    [.update 0 (), .connectionSuccess, .update 1 (), .update 2 (), .result 1 (), .update 3 (),
      .result 2 (), .update 4 (), .result 3 (), .update 5 (), .result 4 (), .update 6 ()]
  refine ⟨halong, w, hrun, hordered, Nat.le_antisymm (honce halong) ?_⟩
  exact Nat.le_of_eq (Runs.run_observe (f := configurations) (b := 1) hrun (by decide +kernel)).symm

/-- The key request is repeated, and the second answer to it comes right after the client is
registered, before `Update` reports it: the registration starts over and ends with a second
configuration. -/
theorem configured_twice : ¬∀ events : List (RegistrationEvent Unit Unit),
    ∃ w : Registration Unit Unit Unit Unit,
      Runs.run (step acceptingCrypto) { serversLeft := 1, requestId := 1 } events = some w ∧
      w.configurations ≤ 1 := by
  intro h
  obtain ⟨w, hrun, hle⟩ := h [.update 0 (), .connectionSuccess, .update 1 (), .update 2 (),
    .update 20000003 (), .update 20000004 (), .result 1 (), .update 20000005 (), .result 3 (),
    .update 20000006 (), .result 4 (), .update 20000007 (), .result 5 (), .result 2 (),
    .update 20000008 (), .result 6 (), .update 20000009 (), .result 7 (), .update 20000010 (),
    .result 8 ()]
  have htwo := Runs.run_observe (f := configurations) (b := 2) hrun (by decide +kernel)
  omega

end Registration
end AetherClient
