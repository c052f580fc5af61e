import OscHost.Schedule.Diagnostic
import Mathlib.Data.List.Count

/-!
# Conservation of diagnostics

Senders share the counters of their hub and fill rings of their own, which two readers empty. Whoever does what
in which order, no diagnostic is lost without being counted: each one that was sent has been taken out, is still
pending, or found the ring of its sender full (`run_conserves`).
-/

namespace OscHost

/-- What a diagnostic is about, without its particulars. -/
inductive Diagnostic.Kind where
  | lateEvent
  | queueFull
  | pipeOverflow
  | poolExhausted
  | malformedPacket
  | clockStep
  deriving DecidableEq, Repr

def Diagnostic.kind : Diagnostic → Kind
  | lateEvent .. => .lateEvent
  | queueFull .. => .queueFull
  | pipeOverflow .. => .pipeOverflow
  | poolExhausted .. => .poolExhausted
  | malformedPacket .. => .malformedPacket
  | clockStep .. => .clockStep

namespace Stats

def count (stats : Stats) : Diagnostic.Kind → Nat
  | .lateEvent => stats.lateEvents
  | .queueFull => stats.queueFull
  | .pipeOverflow => stats.pipeOverflows
  | .poolExhausted => stats.poolExhausted
  | .malformedPacket => stats.malformedPackets
  | .clockStep => stats.clockSteps

theorem count_record (stats : Stats) (d : Diagnostic) (kind : Diagnostic.Kind) :
    (stats.record d).count kind = stats.count kind + if d.kind = kind then 1 else 0 := by
  cases d <;> cases kind <;> rfl

theorem droppedDiagnostics_record (stats : Stats) (d : Diagnostic) :
    (stats.record d).droppedDiagnostics = stats.droppedDiagnostics := by
  cases d <;> rfl

/-- Count a diagnostic, also as dropped unless it was kept. -/
def tally (stats : Stats) (d : Diagnostic) (kept : Bool) : Stats :=
  if kept then stats.record d
  else { stats.record d with droppedDiagnostics := (stats.record d).droppedDiagnostics + 1 }

theorem count_tally (stats : Stats) (d : Diagnostic) (kept : Bool) (kind : Diagnostic.Kind) :
    (stats.tally d kept).count kind = stats.count kind + if d.kind = kind then 1 else 0 := by
  rw [← count_record]
  unfold tally
  split
  · rfl
  · cases kind <;> rfl

theorem droppedDiagnostics_tally (stats : Stats) (d : Diagnostic) (kept : Bool) :
    (stats.tally d kept).droppedDiagnostics = stats.droppedDiagnostics + if kept then 0 else 1 := by
  rw [← stats.droppedDiagnostics_record d]
  unfold tally
  split <;> rfl

end Stats

namespace Ring

def hasRoom (ring : Ring) : Bool := ring.pending.length < ring.capacity

/-- Put a diagnostic behind what is pending, if there is room. -/
def put (ring : Ring) (d : Diagnostic) : Ring :=
  if ring.hasRoom then { ring with pending := ring.pending ++ [d] } else ring

theorem pending_put (ring : Ring) (d : Diagnostic) :
    (ring.put d).pending = ring.pending ++ if ring.hasRoom then [d] else [] := by
  unfold put
  split
  · rfl
  · exact (List.append_nil _).symm

theorem capacity_put (ring : Ring) (d : Diagnostic) : (ring.put d).capacity = ring.capacity := by
  unfold put
  split <;> rfl

theorem length_put (ring : Ring) (d : Diagnostic) :
    (ring.put d).pending.length = ring.pending.length + if ring.hasRoom then 1 else 0 := by
  rw [pending_put, List.length_append]
  split <;> rfl

end Ring

theorem Channel.send_eq (c : Channel) (d : Diagnostic) :
    c.send d = { ring := c.ring.put d, stats := c.stats.tally d c.ring.hasRoom } := by
  have room : c.ring.hasRoom = true ↔ c.ring.pending.length < c.ring.capacity := decide_eq_true_iff
  unfold send Ring.put Stats.tally
  simp only [room]
  split <;> rfl

/-- What one sender has among the diagnostics of all. -/
def Diagnostic.ofSender (sender : Nat) (reports : List (Nat × Diagnostic)) : List Diagnostic :=
  (reports.filter (·.1 = sender)).map (·.2)

namespace Diagnostic

theorem ofSender_append (sender : Nat) (reports more : List (Nat × Diagnostic)) :
    ofSender sender (reports ++ more) = ofSender sender reports ++ ofSender sender more := by
  unfold ofSender
  rw [List.filter_append, List.map_append]

theorem ofSender_own (sender : Nat) (ds : List Diagnostic) : ofSender sender (ds.map (sender, ·)) = ds := by
  unfold ofSender
  rw [List.filter_map, List.filter_eq_self.mpr (by simp), List.map_map]
  exact List.map_id ds

theorem ofSender_other {sender other : Nat} (different : other ≠ sender) (ds : List Diagnostic) :
    ofSender sender (ds.map (other, ·)) = [] := by
  unfold ofSender
  rw [List.filter_map, List.filter_eq_nil_iff.mpr (by simp [different])]
  rfl

end Diagnostic

namespace Hub

/-- What waits in the rings of senders that are numbered from `first` on. -/
def waitingFrom (first : Nat) : List (String × Ring) → List (Nat × Diagnostic)
  | [] => []
  | (_, ring) :: rest => ring.pending.map (first, ·) ++ waitingFrom (first + 1) rest

/-- All that is pending, under the numbers of the senders. -/
def waiting (hub : Hub) : List (Nat × Diagnostic) := waitingFrom 0 hub.rings

def pending (hub : Hub) (sender : Nat) : List Diagnostic := (hub.channel sender).ring.pending

/-- Under which names the senders were registered. -/
def sources (hub : Hub) : List String := hub.rings.map (·.1)

def source (hub : Hub) (sender : Nat) : String := ((hub.rings[sender]?).map (·.1)).getD ""

/-- Every ring has the capacity of the hub, and is not filled beyond it. -/
def Bounded (hub : Hub) : Prop :=
  ∀ sender < hub.rings.length,
    (hub.channel sender).ring.capacity = max hub.capacity 1 ∧ (hub.pending sender).length ≤ max hub.capacity 1

variable {hub : Hub} {sender : Nat}

/-! ### What is pending -/

theorem waitingFrom_append (first : Nat) (before after : List (String × Ring)) :
    waitingFrom first (before ++ after) = waitingFrom first before ++ waitingFrom (first + before.length) after := by
  induction before generalizing first with
  | nil => rfl
  | cons entry before ih =>
    rw [List.cons_append, waitingFrom, waitingFrom, ih, List.append_assoc, List.length_cons,
      Nat.add_assoc, Nat.add_comm 1]

theorem length_waitingFrom (first : Nat) (rings : List (String × Ring)) :
    (waitingFrom first rings).length = total (rings.map (·.2.pending.length)) := by
  induction rings generalizing first with
  | nil => rfl
  | cons entry rings ih => rw [waitingFrom, List.length_append, List.length_map, ih, List.map_cons, total]

theorem ofSender_later {first : Nat} (later : sender < first) (rings : List (String × Ring)) :
    Diagnostic.ofSender sender (waitingFrom first rings) = [] := by
  induction rings generalizing first with
  | nil => rfl
  | cons entry rings ih =>
    rw [waitingFrom, Diagnostic.ofSender_append, Diagnostic.ofSender_other (by omega), ih (by omega)]
    rfl

theorem ofSender_waitingFrom (first number : Nat) (rings : List (String × Ring)) :
    Diagnostic.ofSender (first + number) (waitingFrom first rings) =
      ((rings[number]?).map (·.2.pending)).getD [] := by
  induction rings generalizing first number with
  | nil => rfl
  | cons entry rings ih =>
    rw [waitingFrom, Diagnostic.ofSender_append]
    cases number with
    | zero =>
      rw [Nat.add_zero, Diagnostic.ofSender_own, ofSender_later (Nat.lt_succ_self first), List.append_nil]
      rfl
    | succ number =>
      rw [Diagnostic.ofSender_other (by omega), List.nil_append, ← Nat.add_assoc, Nat.add_right_comm, ih]
      rfl

theorem ofSender_waiting (hub : Hub) (sender : Nat) :
    Diagnostic.ofSender sender hub.waiting = hub.pending sender := by
  have own := ofSender_waitingFrom 0 sender hub.rings
  rw [Nat.zero_add] at own
  rw [waiting, own, pending, channel]
  cases hub.rings[sender]? <;> rfl

theorem flatMap_pending (first : Nat) (rings : List (String × Ring)) :
    rings.flatMap (·.2.pending) = (waitingFrom first rings).map (·.2) := by
  induction rings generalizing first with
  | nil => rfl
  | cons entry rings ih =>
    rw [List.flatMap_cons, ih, waitingFrom, List.map_append, List.map_map]
    exact congrArg (· ++ _) (List.map_id entry.2.pending).symm

/-! ### Senders -/

theorem Bounded.addSender (bounded : hub.Bounded) (source : String) : (hub.addSender source).2.Bounded := by
  intro sender registered
  unfold pending channel Hub.addSender at *
  dsimp only at *
  rw [List.length_append, List.length_singleton] at registered
  by_cases old : sender < hub.rings.length
  · have sound := bounded sender old
    rw [List.getElem?_append_left old]
    exact sound
  · have new : sender = hub.rings.length := by omega
    subst new
    rw [List.getElem?_concat_length]
    exact ⟨rfl, Nat.zero_le _⟩

/-- A new sender has nothing pending, and takes nothing from the others. -/
theorem pending_addSender (hub : Hub) (source : String) (sender : Nat) :
    (hub.addSender source).2.pending sender = hub.pending sender := by
  unfold pending channel addSender
  dsimp only
  rw [List.getElem?_append]
  split
  · rfl
  · rename_i beyond
    rw [List.getElem?_eq_none (Nat.not_lt.mp beyond)]
    cases sender - hub.rings.length <;> rfl

theorem modify_channel (hub : Hub) (sender : Nat) (f : Ring → Ring) :
    hub.rings.modify sender (fun (source, _) => (source, f (hub.channel sender).ring)) =
      hub.rings.modify sender fun (source, ring) => (source, f ring) := by
  refine List.ext_getElem? fun place => ?_
  rw [List.getElem?_modify, List.getElem?_modify, channel]
  cases there : hub.rings[place]? with
  | none => rfl
  | some entry =>
    by_cases here : sender = place
    · subst here
      simp [there]
    · simp [here]

theorem withChannel_channel (hub : Hub) (sender : Nat) : hub.withChannel sender (hub.channel sender) = hub := by
  have rings : hub.rings.modify sender (fun (source, _) => (source, (hub.channel sender).ring)) = hub.rings :=
    (hub.modify_channel sender id).trans (List.modify_id sender hub.rings)
  rw [withChannel, rings]
  rfl

theorem withChannel_withChannel (hub : Hub) (sender : Nat) (c changed : Channel) :
    (hub.withChannel sender c).withChannel sender changed = hub.withChannel sender changed := by
  unfold withChannel
  rw [List.modify_modify_eq]
  rfl

theorem channel_withChannel (registered : sender < hub.rings.length) (c : Channel) :
    (hub.withChannel sender c).channel sender = c := by
  unfold withChannel channel
  dsimp only
  rw [List.getElem?_modify, List.getElem?_eq_getElem registered]
  simp

theorem send_eq (hub : Hub) (sender : Nat) (d : Diagnostic) :
    hub.send sender d =
      { hub with
        rings := hub.rings.modify sender fun (source, ring) => (source, ring.put d)
        stats := hub.stats.tally d (hub.channel sender).ring.hasRoom } := by
  rw [send, Channel.send_eq, withChannel, modify_channel hub sender (·.put d)]
  rfl

theorem length_rings_send (hub : Hub) (sender : Nat) (d : Diagnostic) :
    (hub.send sender d).rings.length = hub.rings.length := by
  rw [send, withChannel, List.length_modify]

theorem sources_send (hub : Hub) (sender : Nat) (d : Diagnostic) :
    (hub.send sender d).sources = hub.sources := by
  unfold sources
  refine List.ext_getElem? fun place => ?_
  rw [send_eq, List.getElem?_map, List.getElem?_map, List.getElem?_modify]
  cases hub.rings[place]? with
  | none => rfl
  | some entry => exact congrArg some ((apply_ite Prod.fst ..).trans (ite_self _))

theorem ring_send_own (registered : sender < hub.rings.length) (d : Diagnostic) :
    ((hub.send sender d).channel sender).ring = (hub.channel sender).ring.put d := by
  obtain ⟨entry, there⟩ : ∃ entry, hub.rings[sender]? = some entry := ⟨_, List.getElem?_eq_getElem registered⟩
  rw [send_eq, channel, channel, List.getElem?_modify, there]
  simp

theorem ring_send_other {other : Nat} (different : other ≠ sender) (d : Diagnostic) :
    ((hub.send sender d).channel other).ring = (hub.channel other).ring := by
  rw [send_eq]
  unfold channel
  dsimp only
  rw [List.getElem?_modify]
  simp [different.symm]

theorem droppedDiagnostics_send (hub : Hub) (sender : Nat) (d : Diagnostic) :
    (hub.send sender d).stats.droppedDiagnostics =
      hub.stats.droppedDiagnostics + if (hub.channel sender).ring.hasRoom then 0 else 1 := by
  rw [send_eq]
  exact Stats.droppedDiagnostics_tally ..

theorem length_waiting_send (registered : sender < hub.rings.length) (d : Diagnostic) :
    (hub.send sender d).waiting.length =
      hub.waiting.length + if (hub.channel sender).ring.hasRoom then 1 else 0 := by
  have split : hub.rings = hub.rings.take sender ++ hub.rings[sender] :: hub.rings.drop (sender + 1) := by
    rw [← List.drop_eq_getElem_cons, List.take_append_drop]
  have changed : (hub.send sender d).rings =
      hub.rings.take sender ++ (hub.rings[sender].1, hub.rings[sender].2.put d) :: hub.rings.drop (sender + 1) := by
    rw [send_eq, List.modify_eq_take_cons_drop registered]
  have own : (hub.channel sender).ring = hub.rings[sender].2 := by
    rw [channel, List.getElem?_eq_getElem registered]
    rfl
  have count := congrArg (fun rings => total (rings.map (·.2.pending.length))) split
  rw [List.map_append, total_append, List.map_cons, total] at count
  rw [waiting, waiting, length_waitingFrom, length_waitingFrom, changed, own, List.map_append, total_append,
    List.map_cons, total, Ring.length_put]
  omega

theorem Bounded.hasRoom_iff (bounded : hub.Bounded) (registered : sender < hub.rings.length) :
    (hub.channel sender).ring.hasRoom = true ↔ (hub.pending sender).length ≠ max hub.capacity 1 := by
  obtain ⟨capacity, filled⟩ := bounded sender registered
  unfold Ring.hasRoom
  unfold pending at filled ⊢
  rw [decide_eq_true_iff, capacity]
  omega

theorem Bounded.send (bounded : hub.Bounded) (sender : Nat) (d : Diagnostic) : (hub.send sender d).Bounded := by
  intro other registered
  rw [length_rings_send] at registered
  have sound := bounded other registered
  have room := bounded.hasRoom_iff registered
  unfold pending at sound room ⊢
  by_cases own : other = sender
  · subst own
    rw [ring_send_own registered, Ring.capacity_put, Ring.length_put]
    refine ⟨sound.1, ?_⟩
    split
    · have vacant := room.mp ‹_›
      exact Nat.lt_of_le_of_ne sound.2 vacant
    · exact sound.2
  · rw [ring_send_other own]
    exact sound

theorem Bounded.sent (bounded : hub.Bounded) (registered : sender < hub.rings.length) (d : Diagnostic) :
    let after := hub.send sender d
    let full := (hub.pending sender).length = max hub.capacity 1
    (after.stats.droppedDiagnostics = hub.stats.droppedDiagnostics + if full then 1 else 0) ∧
      ∀ other, after.pending other =
        if other = sender ∧ ¬full then hub.pending other ++ [d] else hub.pending other := by
  intro after full
  have room : (hub.channel sender).ring.hasRoom = true ↔ ¬full := bounded.hasRoom_iff registered
  constructor
  · unfold after
    rw [droppedDiagnostics_send]
    simp only [room, ite_not]
  · intro other
    unfold after pending
    by_cases own : other = sender
    · subst own
      rw [ring_send_own registered, Ring.pending_put]
      simp only [room, true_and]
      split
      · rfl
      · exact List.append_nil _
    · rw [ring_send_other own, if_neg (fun same => own same.1)]

/-! ### Taking out -/

theorem drain_eq (hub : Hub) : hub.drain = (hub.waiting.map (·.2), hub.emptied) := by
  rw [drain, waiting, ← flatMap_pending]

theorem log_eq (hub : Hub) :
    hub.log = (hub.waiting.map fun (sender, d) => d.logLine (hub.source sender), hub.emptied) := by
  have lines (before rings : List (String × Ring)) (whole : hub.rings = before ++ rings) :
      (rings.flatMap fun (source, ring) => ring.pending.map (Diagnostic.logLine source)) =
        (waitingFrom before.length rings).map fun (sender, d) => d.logLine (hub.source sender) := by
    induction rings generalizing before with
    | nil => rfl
    | cons entry rings ih =>
      have own : hub.source before.length = entry.1 := by
        rw [source, whole, List.getElem?_append_right (Nat.le_refl _), Nat.sub_self]
        rfl
      have others := ih (before ++ [entry]) (by rw [whole, List.append_assoc, List.singleton_append])
      rw [List.length_append, List.length_singleton] at others
      rw [List.flatMap_cons, waitingFrom, List.map_append, others, List.map_map, Function.comp_def]
      dsimp only
      rw [own]
  rw [log, waiting, lines [] hub.rings rfl]
  rfl

theorem waiting_emptied (hub : Hub) : hub.emptied.waiting = [] := by
  have none (first : Nat) (rings : List (String × Ring)) :
      waitingFrom first (rings.map fun (source, ring) => (source, { ring with pending := [] })) = [] := by
    induction rings generalizing first with
    | nil => rfl
    | cons entry rings ih => rw [List.map_cons, waitingFrom, ih, List.map_nil, List.append_nil]
  exact none 0 hub.rings

theorem sources_emptied (hub : Hub) : hub.emptied.sources = hub.sources := by
  unfold sources emptied
  rw [List.map_map]
  rfl

theorem Bounded.emptied (bounded : hub.Bounded) : hub.emptied.Bounded := by
  intro sender registered
  have there : sender < hub.rings.length := by rwa [Hub.emptied, List.length_map] at registered
  have sound := bounded sender there
  unfold pending channel Hub.emptied at *
  rw [List.getElem?_map, List.getElem?_eq_getElem there] at *
  exact ⟨sound.1, Nat.zero_le _⟩

/-! ### Runs -/

/-- What is done with a hub. -/
inductive Use where
  | addSender (source : String)
  | send (sender : Nat) (d : Diagnostic)
  | log
  | drain
  deriving DecidableEq, Repr

/-- The name of the sender that is registered. -/
def Use.opened? : Use → Option String
  | addSender source => some source
  | _ => none

end Hub

/-- A hub, and under the numbers of their senders the diagnostics that were sent and that were taken out. -/
structure Ledger where
  hub : Hub
  sent : List (Nat × Diagnostic) := []
  taken : List (Nat × Diagnostic) := []
  deriving DecidableEq, Repr

namespace Ledger

/-- One use. Only a registered sender sends. -/
def serve (ledger : Ledger) : Hub.Use → Ledger
  | .addSender source => { ledger with hub := (ledger.hub.addSender source).2 }
  | .send sender d =>
    if sender < ledger.hub.rings.length then
      { ledger with hub := ledger.hub.send sender d, sent := ledger.sent ++ [(sender, d)] }
    else ledger
  | .log => { ledger with hub := ledger.hub.log.2, taken := ledger.taken ++ ledger.hub.waiting }
  | .drain => { ledger with hub := ledger.hub.drain.2, taken := ledger.taken ++ ledger.hub.waiting }

def run (ledger : Ledger) (uses : List Hub.Use) : Ledger := uses.foldl serve ledger

/-- The counters and the rings account for all that was sent. -/
structure Balanced (capacity : Nat) (ledger : Ledger) : Prop where
  capacity : ledger.hub.capacity = capacity
  bounded : ledger.hub.Bounded
  counts : ∀ kind, ledger.hub.stats.count kind = ledger.sent.countP (·.2.kind = kind)
  total : ledger.sent.length =
    ledger.taken.length + ledger.hub.waiting.length + ledger.hub.stats.droppedDiagnostics
  order : ∀ sender, (Diagnostic.ofSender sender (ledger.taken ++ ledger.hub.waiting)).Sublist
    (Diagnostic.ofSender sender ledger.sent)

variable {capacity : Nat} {ledger : Ledger}

theorem balanced_empty (capacity : Nat) : Balanced capacity { hub := { capacity } } := by
  refine ⟨rfl, ?_, ?_, rfl, ?_⟩
  · exact nofun
  · intro kind
    cases kind <;> rfl
  · intro sender
    exact List.Sublist.refl []

theorem Balanced.addSender (balanced : ledger.Balanced capacity) (source : String) :
    (ledger.serve (.addSender source)).Balanced capacity := by
  have waiting : (ledger.serve (.addSender source)).hub.waiting = ledger.hub.waiting := by
    refine (Hub.waitingFrom_append 0 ledger.hub.rings _).trans ?_
    exact List.append_nil _
  refine ⟨balanced.capacity, ?_, balanced.counts, ?_, ?_⟩
  · exact balanced.bounded.addSender source
  · rw [waiting]
    exact balanced.total
  · rw [waiting]
    exact balanced.order

theorem Balanced.send (balanced : ledger.Balanced capacity) (sender : Nat) (d : Diagnostic) :
    (ledger.serve (.send sender d)).Balanced capacity := by
  rw [serve]
  split
  · rename_i registered
    refine ⟨?_, balanced.bounded.send sender d, fun kind => ?_, ?_, fun other => ?_⟩
    · exact balanced.capacity
    · rw [Hub.send_eq, Stats.count_tally, balanced.counts, List.countP_append, List.countP_singleton]
      simp only [decide_eq_true_eq]
    · have total := balanced.total
      rw [Hub.length_waiting_send registered, Hub.droppedDiagnostics_send, List.length_append,
        List.length_singleton]
      dsimp only
      split <;> omega
    · -- What waits is listed by sender, so the new diagnostic is last only among those of its own sender.
      have order := balanced.order other
      rw [Diagnostic.ofSender_append, Hub.ofSender_waiting] at order ⊢
      rw [Diagnostic.ofSender_append other ledger.sent]
      unfold Hub.pending at order ⊢
      by_cases own : other = sender
      · subst own
        have last := Diagnostic.ofSender_own other [d]
        rw [List.map_singleton] at last
        rw [Hub.ring_send_own registered, Ring.pending_put, last, ← List.append_assoc]
        refine order.append ?_
        split
        · exact List.Sublist.refl [d]
        · exact List.nil_sublist [d]
      · rw [Hub.ring_send_other own]
        exact order.trans (List.sublist_append_left _ _)
  · exact balanced

theorem Balanced.emptied (balanced : ledger.Balanced capacity) :
    Balanced capacity { ledger with hub := ledger.hub.emptied, taken := ledger.taken ++ ledger.hub.waiting } := by
  have waiting := ledger.hub.waiting_emptied
  refine ⟨balanced.capacity, balanced.bounded.emptied, balanced.counts, ?_, ?_⟩
  · rw [waiting, List.length_append]
    exact balanced.total
  · rw [waiting, List.append_nil]
    exact balanced.order

theorem Balanced.serve (balanced : ledger.Balanced capacity) (use : Hub.Use) :
    (ledger.serve use).Balanced capacity := by
  cases use with
  | addSender source => exact balanced.addSender source
  | send sender d => exact balanced.send sender d
  | log =>
    rw [Ledger.serve, Hub.log_eq]
    exact balanced.emptied
  | drain =>
    rw [Ledger.serve, Hub.drain_eq]
    exact balanced.emptied

theorem sources_serve (ledger : Ledger) (use : Hub.Use) :
    (ledger.serve use).hub.sources = ledger.hub.sources ++ use.opened?.toList := by
  cases use with
  | addSender source => exact List.map_append
  | send sender d =>
    refine Eq.trans ?_ (List.append_nil _).symm
    rw [Ledger.serve]
    split
    · exact ledger.hub.sources_send sender d
    · rfl
  | log => exact ledger.hub.sources_emptied.trans (List.append_nil _).symm
  | drain => exact ledger.hub.sources_emptied.trans (List.append_nil _).symm

/-- There is a ring for each sender that was registered, in the order of registration. -/
theorem sources_run (ledger : Ledger) (uses : List Hub.Use) :
    (ledger.run uses).hub.sources = ledger.hub.sources ++ uses.filterMap Hub.Use.opened? := by
  induction uses generalizing ledger with
  | nil => exact (List.append_nil _).symm
  | cons use uses ih =>
    have onwards := ih (ledger.serve use)
    rw [sources_serve, List.append_assoc] at onwards
    rw [List.filterMap_cons]
    cases opened : use.opened? <;> rwa [opened] at onwards

theorem Balanced.run (balanced : ledger.Balanced capacity) (uses : List Hub.Use) :
    (ledger.run uses).Balanced capacity := by
  induction uses generalizing ledger with
  | nil => exact balanced
  | cons use uses ih => exact ih (balanced.serve use)

/-- Whatever was done with a hub of any capacity, it has a ring for each sender that was registered, and a new one
is numbered behind them. Each kind is counted as often as it was sent, and what was sent has been taken out, is
pending or was dropped. What was taken out of a ring, with what is still in it, comes from its sender in the order
of sending and at most once. A diagnostic is dropped if and only if the ring of its sender is full; else it is put
behind what is pending there, and nothing else is. Both readers take all that is pending. -/
theorem run_conserves (capacity : Nat) (uses : List Hub.Use) :
    let ledger := run { hub := { capacity } } uses
    let hub := ledger.hub
    let opened := uses.filterMap Hub.Use.opened?
    let pendingTotal := total (hub.rings.map (·.2.pending.length))
    (hub.sources = opened ∧ hub.rings.length = opened.length ∧
        ∀ source, (hub.addSender source).1 = opened.length ∧
          ∀ sender, (hub.addSender source).2.pending sender = hub.pending sender) ∧
      (∀ kind, hub.stats.count kind = ledger.sent.countP (·.2.kind = kind)) ∧
      ledger.sent.length = ledger.taken.length + pendingTotal + hub.stats.droppedDiagnostics ∧
      (∀ sender, (Diagnostic.ofSender sender ledger.taken ++ hub.pending sender).Sublist
        (Diagnostic.ofSender sender ledger.sent)) ∧
      (∀ sender < hub.rings.length, ∀ d,
        let after := hub.send sender d
        let full := (hub.pending sender).length = max capacity 1
        (after.stats.droppedDiagnostics = hub.stats.droppedDiagnostics + if full then 1 else 0) ∧
          ∀ other, after.pending other =
            if other = sender ∧ ¬full then hub.pending other ++ [d] else hub.pending other) ∧
      (hub.drain.1 = hub.waiting.map (·.2) ∧
        hub.log.1 = hub.waiting.map (fun (sender, d) => d.logLine (hub.source sender)) ∧
        hub.drain.1.length = pendingTotal ∧ hub.log.1.length = pendingTotal) ∧
      hub.log.2 = hub.drain.2 ∧ hub.drain.2.stats = hub.stats ∧ ∀ sender, hub.drain.2.pending sender = [] := by
  intro ledger hub opened pendingTotal
  have balanced : ledger.Balanced capacity := (balanced_empty capacity).run uses
  have waiting : hub.waiting.length = pendingTotal := Hub.length_waitingFrom 0 hub.rings
  have sources : hub.sources = opened := sources_run _ uses
  have length : hub.rings.length = opened.length := by
    rw [← sources, Hub.sources, List.length_map]
  refine ⟨?_, balanced.counts, ?_, ?_, ?_, ?_, ?_⟩
  · exact ⟨sources, length, fun source => ⟨length, hub.pending_addSender source⟩⟩
  · rw [← waiting]
    exact balanced.total
  · intro sender
    have order := balanced.order sender
    rwa [Diagnostic.ofSender_append, Hub.ofSender_waiting] at order
  · intro sender registered d after full
    have sent := balanced.bounded.sent registered d
    rwa [balanced.capacity] at sent
  · rw [Hub.drain_eq, Hub.log_eq, List.length_map, List.length_map]
    exact ⟨rfl, rfl, waiting, waiting⟩
  · rw [Hub.drain_eq, Hub.log_eq]
    refine ⟨rfl, rfl, fun sender => ?_⟩
    rw [← Hub.ofSender_waiting, Hub.waiting_emptied]
    rfl

end Ledger

end OscHost
