import AetherClient.DataPacketCollector
import AetherClient.Runs

set_option autoImplicit false

/-!
# How often the loop of `AddData` turns

Each allocation of a call has an outcome of its own here: `alloc k size` is that of the one made
for the `k`-th packet the call begins. A packet without memory never becomes complete and takes
no byte, so a call returns as long as no byte is meant for such a packet.
-/
namespace AetherClient

namespace StreamDataPacketCollector

/-- The loop of `AddData` for so many turns, after `made` allocations. -/
def addTurns (alloc : ℕ → ℕ → Bool) :
    ℕ → ℕ → StreamDataPacketCollector → List UInt8 → Option StreamDataPacketCollector
  | 0, _, c, data => if data.isEmpty then some c else none
  | turns + 1, made, c, data =>
    if data.isEmpty then some c
    else if c.betweenPackets then
      match getPacketSize c.tempDataBuffer data with
      | ((0, _), temp) => some { c with tempDataBuffer := temp }
      | ((size, ofst), temp) =>
        let (c, data) :=
          writeBack ⟨c.packets ++ [Packet.ofSize (alloc made) size], temp⟩ (data.drop ofst)
        addTurns alloc turns (made + 1) c data
    else
      let (c, data) := c.writeBack data
      addTurns alloc turns made c data

theorem addTurns_eq_addLoop (alloc : ℕ → Bool) (turns made : ℕ) (c : StreamDataPacketCollector)
    (data : List UInt8) :
    addTurns (fun _ => alloc) turns made c data = addLoop alloc turns c data := by
  induction turns generalizing made c data with
  | zero => rfl
  | succ turns ih =>
    rw [addTurns, addLoop]
    obtain ⟨⟨_ | size, ofst⟩, temp⟩ := getPacketSize c.tempDataBuffer data
    · simp only [ih]
    · simp only [ih]

/-- The lengths of the packets that the data begins and of which it also has a byte. -/
def declared : ℕ → StreamDataPacketCollector → List UInt8 → List ℕ
  | 0, _, _ => []
  | turns + 1, c, data =>
    if data.isEmpty then []
    else if c.betweenPackets then
      match getPacketSize c.tempDataBuffer data with
      | ((0, _), _) => []
      | ((size, ofst), temp) =>
        if (data.drop ofst).isEmpty then []
        else
          let (c, data) :=
            writeBack ⟨c.packets ++ [Packet.ofSize (fun _ => true) size], temp⟩ (data.drop ofst)
          size :: declared turns c data
    else
      let (c, data) := c.writeBack data
      declared turns c data

def HasRoom (c : StreamDataPacketCollector) : Prop :=
  ∀ p ∈ c.packets.getLast?, isPacketComplete p = false → 0 < p.availableCapacity

section Turns
variable {alloc : ℕ → ℕ → Bool} {c : StreamDataPacketCollector} {data : List UInt8} {turns made : ℕ}

@[simp] theorem addTurns_nil : addTurns alloc turns made c [] = some c := by
  cases turns <;> rfl

@[simp] theorem declared_nil : declared turns c [] = [] := by
  cases turns <;> rfl

theorem turn_cases (hc : Consistent c) (hdata : data ≠ []) :
    (c.betweenPackets = true ∧
      (∀ alloc turns made, ∃ c' : StreamDataPacketCollector, Consistent c' ∧
        c'.packets = c.packets ∧ addTurns alloc (turns + 1) made c data = some c') ∧
      ∀ turns, declared (turns + 1) c data = []) ∨
    (∃ size y, 0 < size ∧ c.betweenPackets = true ∧ y.length < data.length ∧
      (∀ alloc turns made, addTurns alloc (turns + 1) made c data =
        addTurns alloc turns (made + 1) (writeBack (startPacket (alloc made) c size) y).1
          (writeBack (startPacket (alloc made) c size) y).2) ∧
      ∀ turns, declared (turns + 1) c data =
        if y.isEmpty then []
        else size :: declared turns (writeBack (startPacket (fun _ => true) c size) y).1
          (writeBack (startPacket (fun _ => true) c size) y).2) ∨
    (c.betweenPackets = false ∧
      (∀ alloc turns made, addTurns alloc (turns + 1) made c data =
        addTurns alloc turns made (c.writeBack data).1 (c.writeBack data).2) ∧
      ∀ turns, declared (turns + 1) c data =
        declared turns (c.writeBack data).1 (c.writeBack data).2) := by
  have hempty : data.isEmpty = false := by simp [hdata]
  cases hbetween : c.betweenPackets with
  | false =>
    right; right
    refine ⟨rfl, ?_, ?_⟩
    · intro alloc turns made
      simp [addTurns, hempty, hbetween]
    · intro turns
      simp [declared, hempty, hbetween]
  | true =>
    obtain ⟨hsize, hunread⟩ | ⟨size, x, y, hxy, hx, hcodes, hsize⟩ := hc.getPacketSize_cases data
    · left
      refine ⟨rfl, ?_, ?_⟩
      · intro alloc turns made
        refine ⟨{ c with tempDataBuffer := c.tempDataBuffer ++ data }, ?_, rfl, ?_⟩
        · refine ⟨hunread, fun hbody => ?_, hc.room⟩
          exact absurd (hbetween.symm.trans hbody) (by decide)
        · simp [addTurns, hempty, hbetween, hsize]
      · intro turns
        simp [declared, hempty, hbetween, hsize]
    · have hdrop : data.drop x.length = y := by simp [hxy]
      cases size with
      | zero =>
        left
        refine ⟨rfl, ?_, ?_⟩
        · intro alloc turns made
          refine ⟨{ c with tempDataBuffer := [] }, ⟨extract_nil, fun _ => rfl, hc.room⟩, rfl, ?_⟩
          simp [addTurns, hempty, hbetween, hsize]
        · intro turns
          simp [declared, hempty, hbetween, hsize]
      | succ size =>
        right; left
        have hstart (alloc : ℕ → Bool) : startPacket alloc c (size + 1) =
            ⟨c.packets ++ [Packet.ofSize alloc (size + 1)], []⟩ := if_neg (by omega)
        have hshort : y.length < data.length := by
          have hpos : 0 < x.length := List.length_pos_iff.mpr hx
          rw [hxy, List.length_append]
          omega
        refine ⟨size + 1, y, by omega, rfl, hshort, ?_, ?_⟩
        · intro alloc turns made
          simp [addTurns, hempty, hbetween, hsize, hdrop, hstart]
        · intro turns
          simp [declared, hempty, hbetween, hsize, hdrop, hstart]

theorem addTurns_mono {c' : StreamDataPacketCollector}
    (h : addTurns alloc turns made c data = some c') {turns' : ℕ} (hle : turns ≤ turns') :
    addTurns alloc turns' made c data = some c' := by
  induction turns generalizing turns' made c data with
  | zero =>
    rw [addTurns] at h
    split at h
    · next hempty =>
      rw [List.isEmpty_iff.mp hempty, addTurns_nil]
      exact h
    · cases h
  | succ turns ih =>
    obtain ⟨turns', rfl⟩ : ∃ n, turns' = n + 1 := ⟨turns' - 1, by omega⟩
    rw [addTurns] at h ⊢
    split_ifs at h ⊢ with hempty hbetween
    · exact h
    · split at h
      · exact h
      · exact ih h (by omega)
    · exact ih h (by omega)

theorem writeBack_of_getLast? {p : Packet} (hlast : c.packets.getLast? = some p)
    (data : List UInt8) :
    ∃ n, (n = data.length ∨ n = p.availableCapacity) ∧ n ≤ p.availableCapacity ∧
      c.writeBack data =
        ({ c with packets := c.packets.dropLast ++ [p.append (data.take n)] }, data.drop n) := by
  by_cases hfew : p.availableCapacity > data.length
  · refine ⟨data.length, Or.inl rfl, Nat.le_of_lt hfew, ?_⟩
    simp [writeBack, hlast, writeToPacket, hfew]
  · refine ⟨p.availableCapacity, Or.inr rfl, Nat.le_refl _, ?_⟩
    simp [writeBack, hlast, writeToPacket, hfew]

theorem addTurns_of_stuck {p : Packet} (hlast : c.packets.getLast? = some p)
    (hbody : isPacketComplete p = false) (hfull : p.availableCapacity = 0) (hdata : data ≠ []) :
    addTurns alloc turns made c data = none := by
  have hbetween : c.betweenPackets = false := by simp [betweenPackets, hlast, hbody]
  have hsame := writeBack_of_full hlast hfull data
  induction turns with
  | zero => simp [addTurns, hdata]
  | succ turns ih => simp [addTurns, hdata, hbetween, hsame, ih]

/-- The packet that is filled has all the memory it asked for, or none. -/
def AllOrNothing (c : StreamDataPacketCollector) : Prop :=
  ∀ p ∈ c.packets.getLast?, p.capacity = p.expectedPacketSize ∨ p.capacity = 0

theorem AllOrNothing.writeBack (h : AllOrNothing c) : AllOrNothing (c.writeBack data).1 := by
  cases hlast : c.packets.getLast? with
  | none => simpa [StreamDataPacketCollector.writeBack, hlast] using h
  | some p =>
    obtain ⟨n, -, -, heq⟩ := writeBack_of_getLast? hlast data
    have hp := h p hlast
    simpa [AllOrNothing, heq, Packet.append] using hp

theorem startPacket_of_pos (outcome : ℕ → Bool) {size : ℕ} (h : 0 < size) :
    startPacket outcome c size = ⟨c.packets ++ [Packet.ofSize outcome size], []⟩ :=
  if_neg (by omega)

theorem getLast?_startPacket (outcome : ℕ → Bool) {size : ℕ} (h : 0 < size) :
    (startPacket outcome c size).packets.getLast? = some (Packet.ofSize outcome size) := by
  simp [startPacket_of_pos outcome h]

theorem consistent_startPacket (outcome : ℕ → Bool) {size : ℕ} (h : 0 < size) :
    Consistent (startPacket outcome c size) := by
  rw [startPacket_of_pos outcome h]
  exact consistent_concat _ (capacity_ofSize_le outcome size)

theorem allOrNothing_startPacket (outcome : ℕ → Bool) {size : ℕ} (h : 0 < size) :
    AllOrNothing (startPacket outcome c size) := by
  intro p hp
  rw [getLast?_startPacket outcome h] at hp
  cases hp
  rw [Packet.ofSize]
  split
  · exact Or.inl rfl
  · exact Or.inr rfl

theorem consistent_writeBack_startPacket (outcome : ℕ → Bool) {size : ℕ} (h : 0 < size) :
    Consistent ((startPacket outcome c size).writeBack data).1 := by
  refine (consistent_startPacket outcome h).writeBack (getLast?_startPacket outcome h) ?_ data
  rw [startPacket_of_pos outcome h]

theorem exists_waiting (h : c.betweenPackets = false) :
    ∃ p, c.packets.getLast? = some p ∧ isPacketComplete p = false := by
  cases hlast : c.packets.getLast? with
  | none => simp [betweenPackets, hlast] at h
  | some p =>
    refine ⟨p, rfl, ?_⟩
    simpa [betweenPackets, hlast] using h

theorem addTurns_keeps {c' : StreamDataPacketCollector} (hc : Consistent c) (hall : AllOrNothing c)
    (h : addTurns alloc turns made c data = some c') : Consistent c' ∧ AllOrNothing c' := by
  induction turns generalizing made c data with
  | zero =>
    rw [addTurns] at h
    split at h
    · cases h
      exact ⟨hc, hall⟩
    · cases h
  | succ turns ih =>
    by_cases hdata : data = []
    · rw [hdata, addTurns_nil] at h
      cases h
      exact ⟨hc, hall⟩
    obtain ⟨-, hends, -⟩ | ⟨size, y, hpos, -, -, hstarts, -⟩ | ⟨hbetween, hfills, -⟩ :=
      turn_cases hc hdata
    · obtain ⟨c₁, hc₁, hpackets, heq⟩ := hends alloc turns made
      rw [heq] at h
      cases h
      refine ⟨hc₁, ?_⟩
      rw [AllOrNothing, hpackets]
      exact hall
    · rw [hstarts] at h
      exact ih (consistent_writeBack_startPacket _ hpos) (allOrNothing_startPacket _ hpos).writeBack h
    · rw [hfills] at h
      obtain ⟨p, hlast, -⟩ := exists_waiting hbetween
      exact ih (hc.writeBack hlast (hc.inBody hbetween) data) hall.writeBack h

theorem hasRoom_writeBack {p : Packet} (hlast : c.packets.getLast? = some p)
    (hfull : p.capacity = p.expectedPacketSize) (hle : p.memBuffer.length ≤ p.capacity) :
    HasRoom (c.writeBack data).1 := by
  obtain ⟨n, -, hn, heq⟩ := writeBack_of_getLast? hlast data
  intro p' hp' hwaits
  simp only [heq, List.getLast?_concat, Option.mem_def, Option.some.injEq] at hp'
  subst hp'
  simp only [isPacketComplete, Packet.append, List.length_append, List.length_take,
    decide_eq_false_iff_not] at hwaits
  simp only [Packet.availableCapacity, Packet.append, List.length_append, List.length_take] at hn ⊢
  omega

theorem length_writeBack_le {p : Packet} (hlast : c.packets.getLast? = some p) :
    (c.writeBack data).2.length ≤ data.length := by
  obtain ⟨n, -, -, heq⟩ := writeBack_of_getLast? hlast data
  rw [heq, List.length_drop]
  omega

theorem addTurns_of_refused {size : ℕ} (hpos : 0 < size) (hdata : data ≠ [])
    (hgot : alloc made size = false) :
    addTurns alloc turns (made + 1) (writeBack (startPacket (alloc made) c size) data).1
      (writeBack (startPacket (alloc made) c size) data).2 = none := by
  have hpacket : Packet.ofSize (alloc made) size = ⟨[], 0, size⟩ := by
    simp [Packet.ofSize, hgot]
  have hwaits : isPacketComplete ⟨[], 0, size⟩ = false := by
    simp [isPacketComplete]
    omega
  have hstart := getLast?_startPacket (c := c) (alloc made) hpos
  rw [hpacket] at hstart
  rw [writeBack_of_full hstart rfl, addTurns_of_stuck hstart hwaits rfl hdata]

theorem forall_getElem?_cons {size : ℕ} {sizes : List ℕ} :
    (∀ k s, (size :: sizes)[k]? = some s → alloc (made + k) s = true) ↔
      alloc made size = true ∧ ∀ k s, sizes[k]? = some s → alloc (made + 1 + k) s = true := by
  constructor
  · intro h
    refine ⟨h 0 size rfl, ?_⟩
    intro k s hk
    have hnext := h (k + 1) s hk
    rwa [Nat.add_comm k 1, ← Nat.add_assoc] at hnext
  · rintro ⟨hfirst, h⟩ (_ | k) s hk
    · cases hk
      exact hfirst
    · have hnext := h k s hk
      rwa [Nat.add_assoc, Nat.add_comm 1 k] at hnext

theorem addTurns_returns_iff {turns' : ℕ} (hc : Consistent c) (hall : AllOrNothing c)
    (hroom : HasRoom c) (hle : data.length ≤ turns) (hle' : data.length ≤ turns') :
    (∃ c', addTurns alloc turns made c data = some c') ↔
      ∀ k size, (declared turns' c data)[k]? = some size → alloc (made + k) size = true := by
  induction turns generalizing turns' made c data with
  | zero =>
    obtain rfl : data = [] := List.eq_nil_of_length_eq_zero (by omega)
    simp
  | succ turns ih =>
    by_cases hdata : data = []
    · simp [hdata]
    have hsome : 0 < data.length := List.length_pos_iff.mpr hdata
    obtain ⟨turns', rfl⟩ : ∃ n, turns' = n + 1 := ⟨turns' - 1, by omega⟩
    obtain ⟨-, hends, hnone⟩ | ⟨size, y, hpos, -, hshort, hstarts, hdeclared⟩ |
        ⟨hbetween, hfills, hdeclared⟩ := turn_cases hc hdata
    · obtain ⟨c₁, -, -, heq⟩ := hends alloc turns made
      rw [hnone, heq]
      simp
    · have hlast (outcome : ℕ → Bool) := getLast?_startPacket (c := c) outcome hpos
      rw [hstarts, hdeclared]
      by_cases hy : y = []
      · obtain ⟨n, -, -, heq⟩ := writeBack_of_getLast? (hlast (alloc made)) y
        rw [heq, hy]
        simp
      simp only [List.isEmpty_iff, hy, if_false, forall_getElem?_cons]
      cases hgot : alloc made size with
      | false =>
        rw [addTurns_of_refused hpos hy hgot]
        simp
      | true =>
        have hsame : startPacket (alloc made) c size = startPacket (fun _ => true) c size := by
          simp only [startPacket_of_pos _ hpos, Packet.ofSize, hgot]
        have hshrinks : ((startPacket (fun _ => true) c size).writeBack y).2.length ≤ y.length :=
          length_writeBack_le (hlast fun _ => true)
        have hrest : y.length ≤ turns' := by omega
        rw [hsame, ih (consistent_writeBack_startPacket _ hpos)
          (allOrNothing_startPacket _ hpos).writeBack
          (hasRoom_writeBack (hlast fun _ => true) rfl (Nat.zero_le _)) (by omega)
          (Nat.le_trans hshrinks hrest), eq_self, true_and]
    · obtain ⟨p, hlast, hwaits⟩ := exists_waiting hbetween
      have havailable := hroom p hlast hwaits
      rw [Packet.availableCapacity] at havailable
      have hfull : p.capacity = p.expectedPacketSize :=
        (hall p hlast).resolve_right (by omega)
      have hshrinks : (c.writeBack data).2.length < data.length := by
        obtain ⟨n, hn, -, heq⟩ := writeBack_of_getLast? hlast data
        rw [Packet.availableCapacity] at hn
        rw [heq, List.length_drop]
        omega
      rw [hfills, hdeclared]
      exact ih (hc.writeBack hlast (hc.inBody hbetween) data) hall.writeBack
        (hasRoom_writeBack hlast hfull (by omega)) (by omega) (by omega)

end Turns

inductive Call where
  | addData (alloc : ℕ → ℕ → Bool) (data : List UInt8)
  | popPacket

def answer (c : StreamDataPacketCollector) : Call → Option StreamDataPacketCollector
  | .addData alloc data => addTurns alloc data.length 0 c data
  | .popPacket => some c.popPacket.2

theorem getLast?_popPacket {c : StreamDataPacketCollector} {p : Packet}
    (h : p ∈ c.popPacket.2.packets.getLast?) : p ∈ c.packets.getLast? := by
  rw [popPacket] at h
  split at h
  · exact h
  · next front packets heq =>
    split at h
    · rw [heq, List.getLast?_cons]
      simp only [Option.mem_def] at h
      simp [h]
    · exact h

theorem betweenPackets_popPacket {c : StreamDataPacketCollector}
    (h : c.popPacket.2.betweenPackets = false) : c.betweenPackets = false := by
  obtain ⟨p, hlast, hwaits⟩ := exists_waiting h
  have hp : c.packets.getLast? = some p := getLast?_popPacket hlast
  simp [betweenPackets, hp, hwaits]

theorem tempDataBuffer_popPacket (c : StreamDataPacketCollector) :
    c.popPacket.2.tempDataBuffer = c.tempDataBuffer := by
  rw [popPacket]
  split
  · rfl
  · split <;> rfl

theorem popPacket_keeps {c : StreamDataPacketCollector} (hc : Consistent c)
    (hall : AllOrNothing c) : Consistent c.popPacket.2 ∧ AllOrNothing c.popPacket.2 := by
  have htemp := tempDataBuffer_popPacket c
  refine ⟨⟨?_, ?_, ?_⟩, fun p hp => hall p (getLast?_popPacket hp)⟩
  · rw [htemp]
    exact hc.partialSize
  · intro hbody
    rw [htemp]
    exact hc.inBody (betweenPackets_popPacket hbody)
  · exact fun p hp => hc.room p (getLast?_popPacket hp)

theorem run_keeps {calls : List Call} {c : StreamDataPacketCollector}
    (h : Runs.run answer {} calls = some c) : Consistent c ∧ AllOrNothing c := by
  refine Runs.run_preserves (P := fun _ _ => True) (I := fun c => Consistent c ∧ AllOrNothing c) ?_
    ⟨consistent_init, fun p hp => by simp at hp⟩
    (Runs.Along.of_forall fun _ _ _ => trivial) h
  intro c call c' hkeep _ hstep
  cases call with
  | addData alloc data => exact addTurns_keeps hkeep.1 hkeep.2 hstep
  | popPacket =>
    cases hstep
    exact popPacket_keeps hkeep.1 hkeep.2

theorem addData_returns_iff {calls : List Call} {c : StreamDataPacketCollector}
    (h : Runs.run answer {} calls = some c) (alloc : ℕ → ℕ → Bool) (data : List UInt8) :
    (∃ turns c', addTurns alloc turns 0 c data = some c') ↔
      (data = [] ∨ HasRoom c) ∧
        ∀ k size, (declared data.length c data)[k]? = some size → alloc k size = true := by
  obtain ⟨hc, hall⟩ := run_keeps h
  by_cases hroom : HasRoom c
  · have hreturns (turns : ℕ) (hle : data.length ≤ turns) :
        (∃ c', addTurns alloc turns 0 c data = some c') ↔ _ :=
      addTurns_returns_iff hc hall hroom hle (Nat.le_refl _)
    simp only [Nat.zero_add] at hreturns
    constructor
    · rintro ⟨turns, c', hc'⟩
      have hmore := addTurns_mono hc' (Nat.le_add_right turns data.length)
      exact ⟨Or.inr hroom, (hreturns _ (Nat.le_add_left _ _)).mp ⟨c', hmore⟩⟩
    · rintro ⟨-, hgranted⟩
      exact ⟨data.length, (hreturns _ (Nat.le_refl _)).mpr hgranted⟩
  · by_cases hdata : data = []
    · subst hdata
      simp
    · -- the packet that waits got no memory in an earlier call
      simp only [HasRoom, not_forall, Nat.not_lt, Nat.le_zero] at hroom
      obtain ⟨p, hlast, hwaits, hfull⟩ := hroom
      constructor
      · rintro ⟨turns, c', hc'⟩
        rw [addTurns_of_stuck hlast hwaits hfull hdata] at hc'
        cases hc'
      · rintro ⟨hfirst, -⟩
        have hroom := hfirst.resolve_left hdata p hlast hwaits
        omega

/-- A packet of three bytes in two buffers. -/
theorem addData_returns_iff_two_buffers :
    ∃ c, Runs.run answer {} [.addData (fun _ _ => true) [3, 7]] = some c ∧
      ((∃ turns c', addTurns (fun _ _ => false) turns 0 c [8, 9] = some c') ↔
        ([8, 9] = ([] : List UInt8) ∨ HasRoom c) ∧
          ∀ k size : ℕ, (declared 2 c [8, 9])[k]? = some size → false = true) :=
  have hrun : Runs.run answer {} [.addData (fun _ _ => true) [3, 7]] =
      some ⟨[⟨[7], 3, 3⟩], []⟩ := by decide
  ⟨⟨[⟨[7], 3, 3⟩], []⟩, hrun, addData_returns_iff hrun (fun _ _ => false) [8, 9]⟩

/-- No memory for the five bytes that the peer announces, and one of them arrives. -/
theorem addData_may_not_return :
    ¬ ∀ (calls : List Call) (c : StreamDataPacketCollector), Runs.run answer {} calls = some c →
      ∀ (alloc : ℕ → ℕ → Bool) (data : List UInt8),
        ∃ turns c', addTurns alloc turns 0 c data = some c' := by
  intro h
  obtain ⟨turns, c', hc'⟩ := h [] {} rfl (fun _ _ => false) [5, 1]
  cases turns with
  | zero => cases hc'
  | succ turns =>
    have hstarts : addTurns (fun _ _ => false) (turns + 1) 0 {} [5, 1] =
        addTurns (fun _ _ => false) turns 1 ⟨[⟨[], 0, 5⟩], []⟩ [1] := rfl
    rw [hstarts, addTurns_of_stuck (p := ⟨[], 0, 5⟩) rfl rfl rfl (by simp)] at hc'
    cases hc'

end StreamDataPacketCollector

end AetherClient
