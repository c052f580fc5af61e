import OscHost.Proofs.Host.Passage
import OscHost.Proofs.Host.Verdicts
import OscHost.Proofs.Schedule.Reports

/-!
# Independent inlets

The threads that feed the inlets of a host share its diagnostics, their counters and one signal. Still no inlet
notices what the others are fed: every one has a ring of diagnostics of its own (`Host.Connected`), counting
commutes, and a signal that was raised stays raised. So the answers and the host that is left depend on the
order of the packets at each inlet only (`Host.interleavings_agree`).
-/

namespace OscHost

/-! ### Senders -/

theorem Stats.ext_count {stats other : Stats} (counts : ∀ kind, stats.count kind = other.count kind)
    (dropped : stats.droppedDiagnostics = other.droppedDiagnostics) : stats = other := by
  have lateEvents := counts .lateEvent
  have queueFull := counts .queueFull
  have pipeOverflows := counts .pipeOverflow
  have poolExhausted := counts .poolExhausted
  have malformedPackets := counts .malformedPacket
  have clockSteps := counts .clockStep
  cases stats
  cases other
  simp_all [count]

theorem Stats.tally_comm (stats : Stats) (d e : Diagnostic) (kept held : Bool) :
    (stats.tally d kept).tally e held = (stats.tally e held).tally d kept := by
  apply Stats.ext_count
  · intro kind
    simp only [count_tally]
    omega
  · simp only [droppedDiagnostics_tally]
    omega

namespace Hub

variable {hub : Hub} {sender other : Nat}

def sendAll (hub : Hub) (sender : Nat) (ds : List Diagnostic) : Hub := ds.foldl (fun hub d => hub.send sender d) hub

theorem channel_send (registered : sender < hub.rings.length) (d : Diagnostic) :
    (hub.send sender d).channel sender = (hub.channel sender).send d := by
  rw [send, channel_withChannel registered]

theorem withChannel_sendAll (registered : sender < hub.rings.length) (ds : List Diagnostic) :
    hub.withChannel sender ((hub.channel sender).sendAll ds) = hub.sendAll sender ds := by
  induction ds generalizing hub with
  | nil => exact hub.withChannel_channel sender
  | cons d ds ih =>
    have there : sender < (hub.send sender d).rings.length := by rwa [length_rings_send]
    have onwards := ih there
    rw [channel_send registered] at onwards
    refine Eq.trans ?_ onwards
    rw [send, withChannel_withChannel]
    rfl

theorem send_comm (different : sender ≠ other) (d e : Diagnostic) :
    (hub.send sender d).send other e = (hub.send other e).send sender d := by
  rw [send_eq (hub.send sender d), send_eq (hub.send other e), ring_send_other different.symm,
    ring_send_other different, send_eq, send_eq]
  dsimp only
  rw [List.modify_modify_ne _ _ _ different, Stats.tally_comm]

theorem sendAll_send (different : sender ≠ other) (ds : List Diagnostic) (e : Diagnostic) :
    (hub.sendAll sender ds).send other e = (hub.send other e).sendAll sender ds := by
  induction ds generalizing hub with
  | nil => rfl
  | cons d ds ih =>
    have onwards := @ih (hub.send sender d)
    rw [send_comm different] at onwards
    exact onwards

theorem sendAll_comm (different : sender ≠ other) (ds es : List Diagnostic) :
    (hub.sendAll sender ds).sendAll other es = (hub.sendAll other es).sendAll sender ds := by
  induction es generalizing hub with
  | nil => rfl
  | cons e es ih =>
    have onwards := @ih (hub.send other e)
    rw [← sendAll_send different] at onwards
    exact onwards

theorem length_rings_sendAll (hub : Hub) (sender : Nat) (ds : List Diagnostic) :
    (hub.sendAll sender ds).rings.length = hub.rings.length := by
  induction ds generalizing hub with
  | nil => rfl
  | cons d ds ih => exact (ih (hub.send sender d)).trans (length_rings_send hub sender d)

end Hub

/-- Raise the signal if there is a reason to. -/
def Signal.raise (signal : Signal) (reason : Bool) : Signal := if reason then signal.notify.2 else signal

theorem Signal.raise_comm (signal : Signal) (reason other : Bool) :
    (signal.raise reason).raise other = (signal.raise other).raise reason := by
  unfold raise
  cases reason <;> cases other <;> rfl

/-! ### One packet -/

/-- What a packet does to an inlet, and what is reported, does not depend on what is shared. -/
theorem Inlet.inject_local (inlet : Inlet) (clocks : Clocks) (packet : List UInt8) :
    ∃ outcome changed reports reason, changed.sender = inlet.sender ∧ ∀ channel signal,
      inlet.inject clocks packet channel signal =
        (outcome, changed, Channel.sendAll channel reports, Signal.raise signal reason) := by
  cases parsed : Packet.parse packet with
  | error error =>
    refine ⟨.error error, { inlet with malformed := inlet.malformed + 1 }, [.malformedPacket error packet.length],
      false, rfl, fun channel signal => ?_⟩
    exact inlet.inject_malformed clocks channel signal parsed
  | ok p =>
    -- The verdicts are those of any channel. The default one stands for it.
    let judged := judgeAll Space.judge inlet.pipe.space (clocks.items inlet.mode packet)
    let after := Intake.judged { pipe := inlet.pipe, channel := default } inlet.destination judged.1
    refine ⟨.ok after.written, { inlet with pipe := after.pipe, dropped := inlet.dropped + after.dropped },
      Verdict.reports judged.1, decide (0 < after.written), rfl, fun channel signal => ?_⟩
    rw [inlet.inject_judged clocks channel signal parsed]
    unfold Signal.raise
    simp only [decide_eq_true_eq]
    rfl

theorem Desk.senders_serveInlets (desk : Desk) (inlets : List Inlet) (signal : Signal) :
    (desk.serveInlets inlets signal).1.map (·.sender) = inlets.map (·.sender) := by
  induction inlets generalizing desk signal with
  | nil => rfl
  | cons inlet inlets ih =>
    unfold serveInlets
    exact congrArg (inlet.sender :: ·) (ih ..)

namespace Host

variable {host : Host μ}

/-- Let an inlet flatten packets in another mode from now on. -/
def withMode (host : Host μ) (number : Nat) (mode : UnrollMode) : Host μ :=
  { host with inlets := host.inlets.modify number fun inlet => { inlet with mode } }

/-- A packet for an inlet, and the mode in which it is to be flattened. -/
structure Injection where
  inlet : Nat
  mode : UnrollMode
  packet : List UInt8
  deriving DecidableEq, Repr

/-- Answers under the numbers of the inlets that gave them. There is none of an inlet that was not opened. -/
abbrev Answers : Type := List (Nat × Option (Except HostError Nat))

def injectAs (host : Host μ) (injection : Injection) : Option (Except HostError Nat) × Host μ :=
  match (host.withMode injection.inlet injection.mode).send injection.inlet injection.packet with
  | some (outcome, host) => (some outcome, host)
  | none => (none, host)

def injectAll (host : Host μ) : List Injection → Answers × Host μ
  | [] => ([], host)
  | injection :: rest =>
    let (answer, host) := host.injectAs injection
    let (answers, host) := host.injectAll rest
    ((injection.inlet, answer) :: answers, host)

/-- Every inlet has a registered diagnostics sender, and shares it with no other. -/
structure Connected (host : Host μ) : Prop where
  registered : ∀ sender ∈ host.inlets.map (·.sender), sender < host.hub.rings.length
  distinct : (host.inlets.map (·.sender)).Nodup

/-- The inlets keep their senders, and the hub has no more of them. -/
structure SameSenders (host after : Host μ) : Prop where
  inlets : after.inlets.map (·.sender) = host.inlets.map (·.sender)
  rings : after.hub.rings.length = host.hub.rings.length

theorem SameSenders.connected {after : Host μ} (same : host.SameSenders after) (connected : host.Connected) :
    after.Connected := by
  constructor
  · rw [same.inlets, same.rings]
    exact connected.registered
  · rw [same.inlets]
    exact connected.distinct

theorem senders_set {inlets : List Inlet} {number : Nat} {inlet changed : Inlet}
    (there : inlets[number]? = some inlet) (same : changed.sender = inlet.sender) :
    (inlets.set number changed).map (·.sender) = inlets.map (·.sender) := by
  refine List.ext_getElem? fun place => ?_
  rw [List.getElem?_map, List.getElem?_map]
  by_cases here : number = place
  · subst here
    obtain ⟨bound, -⟩ := List.getElem?_eq_some_iff.mp there
    rw [List.getElem?_set_self bound, there, Option.map_some, Option.map_some, same]
  · rw [List.getElem?_set_ne here]

/-! ### One packet at a host -/

theorem injectAs_absent {injection : Injection} (absent : host.inlets[injection.inlet]? = none) :
    host.injectAs injection = (none, host) := by
  have inlets : (host.withMode injection.inlet injection.mode).inlets[injection.inlet]? = none := by
    unfold withMode
    rw [List.getElem?_modify, absent]
    rfl
  unfold injectAs send onInlet
  rw [inlets]
  rfl

/-- What a packet leaves of an inlet, what is reported of it, and whether it is a reason to wake the host. -/
structure Effect where
  inlet : Inlet
  reports : List Diagnostic
  reason : Bool

def withEffect (host : Host μ) (number : Nat) (effect : Effect) : Host μ :=
  { host with
    inlets := host.inlets.set number effect.inlet
    hub := host.hub.sendAll effect.inlet.sender effect.reports
    inbound := host.inbound.raise effect.reason }

theorem withEffect_comm (host : Host μ) {number place : Nat} (different : number ≠ place) {effect other : Effect}
    (apart : effect.inlet.sender ≠ other.inlet.sender) :
    (host.withEffect number effect).withEffect place other =
      (host.withEffect place other).withEffect number effect := by
  unfold withEffect
  dsimp only
  rw [List.set_comm _ _ different, Hub.sendAll_comm apart, Signal.raise_comm]

theorem injectAs_local (inlet : Inlet) (clocks : Clocks) (injection : Injection) :
    ∃ outcome, ∃ effect : Effect, effect.inlet.sender = inlet.sender ∧ ∀ host : Host μ, host.clocks = clocks →
      host.inlets[injection.inlet]? = some inlet → inlet.sender < host.hub.rings.length →
        host.injectAs injection = (some outcome, host.withEffect injection.inlet effect) := by
  obtain ⟨outcome, changed, reports, reason, sender, injected⟩ :=
    Inlet.inject_local { inlet with mode := injection.mode } clocks injection.packet
  have sender : changed.sender = inlet.sender := sender
  refine ⟨outcome.mapError .packet, ⟨changed, reports, reason⟩, sender, fun host same there registered => ?_⟩
  have inlets : (host.withMode injection.inlet injection.mode).inlets[injection.inlet]? =
      some { inlet with mode := injection.mode } := by
    unfold withMode
    rw [List.getElem?_modify, there]
    simp
  have replaced : (host.withMode injection.inlet injection.mode).inlets.set injection.inlet changed =
      host.inlets.set injection.inlet changed := by
    unfold withMode
    rw [List.modify_eq_set_getElem?, there]
    exact List.set_set ..
  have answered : Inlet.inject { inlet with mode := injection.mode }
      (host.withMode injection.inlet injection.mode).clocks injection.packet
      ((host.withMode injection.inlet injection.mode).hub.channel inlet.sender)
      (host.withMode injection.inlet injection.mode).inbound = _ := same ▸ injected _ _
  unfold injectAs send onInlet withEffect
  rw [inlets, ← replaced, sender, ← Hub.withChannel_sendAll registered]
  dsimp only [Option.map_some]
  rw [answered]
  rfl

theorem Connected.sender (connected : host.Connected) {number : Nat} {inlet : Inlet}
    (there : host.inlets[number]? = some inlet) : inlet.sender < host.hub.rings.length :=
  connected.registered _ (List.mem_map_of_mem (List.mem_of_getElem? there))

theorem Connected.apart (connected : host.Connected) {number place : Nat} (different : number ≠ place)
    {inlet other : Inlet} (there : host.inlets[number]? = some inlet) (beside : host.inlets[place]? = some other) :
    inlet.sender ≠ other.sender := by
  intro same
  have first : (host.inlets.map (·.sender))[number]? = some inlet.sender := by
    rw [List.getElem?_map, there, Option.map_some]
  have second : (host.inlets.map (·.sender))[place]? = some inlet.sender := by
    rw [List.getElem?_map, beside, Option.map_some, same]
  obtain ⟨bound, -⟩ := List.getElem?_eq_some_iff.mp first
  exact different ((List.getElem?_inj bound connected.distinct).mp (first.trans second.symm))

theorem Connected.injectAs (connected : host.Connected) (injection : Injection) :
    host.SameSenders (host.injectAs injection).2 ∧
      ∀ number, number ≠ injection.inlet → (host.injectAs injection).2.inlets[number]? = host.inlets[number]? := by
  cases there : host.inlets[injection.inlet]? with
  | none =>
    rw [injectAs_absent there]
    exact ⟨⟨rfl, rfl⟩, fun _ _ => rfl⟩
  | some inlet =>
    obtain ⟨outcome, effect, sender, fed⟩ := injectAs_local inlet host.clocks injection
    rw [fed host rfl there (connected.sender there)]
    refine ⟨⟨senders_set there sender, Hub.length_rings_sendAll ..⟩, fun number other => ?_⟩
    exact List.getElem?_set_ne other.symm

theorem injectAs_comm_absent (connected : host.Connected) {first second : Injection}
    (different : first.inlet ≠ second.inlet) (absent : host.inlets[first.inlet]? = none) :
    host.injectAs first = (none, host) ∧ (host.injectAs second).2.injectAs first = (none, (host.injectAs second).2) := by
  obtain ⟨-, others⟩ := connected.injectAs second
  have still := others first.inlet different
  rw [absent] at still
  exact ⟨injectAs_absent absent, injectAs_absent still⟩

/-- Packets for different inlets may change places. -/
theorem injectAs_comm (connected : host.Connected) {first second : Injection}
    (different : first.inlet ≠ second.inlet) :
    ((host.injectAs first).2.injectAs second).1 = (host.injectAs second).1 ∧
      ((host.injectAs second).2.injectAs first).1 = (host.injectAs first).1 ∧
      ((host.injectAs first).2.injectAs second).2 = ((host.injectAs second).2.injectAs first).2 := by
  cases there : host.inlets[first.inlet]? with
  | none =>
    obtain ⟨now, later⟩ := injectAs_comm_absent connected different there
    rw [later, now]
    exact ⟨rfl, rfl, rfl⟩
  | some inlet =>
    cases beside : host.inlets[second.inlet]? with
    | none =>
      obtain ⟨now, later⟩ := injectAs_comm_absent connected different.symm beside
      rw [later, now]
      exact ⟨rfl, rfl, rfl⟩
    | some other =>
      -- Each packet finds its inlet as it was, and a ring that the other one does not touch.
      have apart : inlet.sender ≠ other.sender := connected.apart different there beside
      have registered := connected.sender there
      have enrolled := connected.sender beside
      obtain ⟨_, effect, sender, fed⟩ := injectAs_local inlet host.clocks first
      obtain ⟨_, effected, own, served⟩ := injectAs_local other host.clocks second
      have behind := served (host.withEffect first.inlet effect) rfl
        ((List.getElem?_set_ne different).trans beside) (by rwa [withEffect, Hub.length_rings_sendAll])
      have before := fed (host.withEffect second.inlet effected) rfl
        ((List.getElem?_set_ne different.symm).trans there) (by rwa [withEffect, Hub.length_rings_sendAll])
      rw [fed host rfl there registered, served host rfl beside enrolled, behind, before]
      exact ⟨rfl, rfl, host.withEffect_comm different (by rwa [sender, own])⟩

/-! ### Many packets -/

/-- The same answers at every inlet, and the same host in the end. -/
structure Agree (one other : Answers × Host μ) : Prop where
  answers : ∀ number, one.1.filter (·.1 = number) = other.1.filter (·.1 = number)
  host : one.2 = other.2

variable {one other last : Answers × Host μ}

theorem Agree.refl (one : Answers × Host μ) : Agree one one := ⟨fun _ => rfl, rfl⟩

theorem Agree.symm (agree : Agree one other) : Agree other one :=
  ⟨fun number => (agree.answers number).symm, agree.host.symm⟩

theorem Agree.trans (front : Agree one other) (back : Agree other last) : Agree one last :=
  ⟨fun number => (front.answers number).trans (back.answers number), front.host.trans back.host⟩

theorem Agree.cons (agree : Agree one other) (answer : Nat × Option (Except HostError Nat)) :
    Agree (answer :: one.1, one.2) (answer :: other.1, other.2) := by
  refine ⟨fun number => ?_, agree.host⟩
  rw [List.filter_cons, List.filter_cons, agree.answers]

theorem injectAll_swap (connected : host.Connected) {first second : Injection}
    (different : first.inlet ≠ second.inlet) (rest : List Injection) :
    Agree (host.injectAll (first :: second :: rest)) (host.injectAll (second :: first :: rest)) := by
  obtain ⟨behind, before, same⟩ := injectAs_comm connected different
  unfold injectAll injectAll
  dsimp only
  rw [behind, before, same]
  refine ⟨fun number => ?_, rfl⟩
  by_cases here : first.inlet = number
  · have other : ¬second.inlet = number := fun same => different (here.trans same.symm)
    simp [here, other]
  · simp [List.filter_cons, here]

theorem injectAll_pull (connected : host.Connected) {injection : Injection} {front : List Injection}
    (others : ∀ other ∈ front, other.inlet ≠ injection.inlet) (back : List Injection) :
    Agree (host.injectAll (front ++ injection :: back)) (host.injectAll (injection :: (front ++ back))) := by
  induction front generalizing host with
  | nil => exact .refl _
  | cons other front ih =>
    obtain ⟨different, others⟩ := List.forall_mem_cons.mp others
    have after : (host.injectAs other).2.Connected := (connected.injectAs other).1.connected connected
    have onwards := (ih after others).cons (other.inlet, (host.injectAs other).1)
    exact onwards.trans (injectAll_swap connected different (front ++ back))

theorem injectAll_agree (connected : host.Connected) {first second : List Injection}
    (orders : ∀ number, first.filter (·.inlet = number) = second.filter (·.inlet = number)) :
    Agree (host.injectAll first) (host.injectAll second) := by
  induction first generalizing host second with
  | nil =>
    cases second with
    | nil => exact .refl _
    | cons injection second =>
      have own := orders injection.inlet
      rw [List.filter_cons_of_pos (by simp)] at own
      cases own
  | cons injection first ih =>
    -- In the other order the packet comes behind packets for other inlets only, so it can be pulled in front.
    have own := orders injection.inlet
    rw [List.filter_cons_of_pos (by simp)] at own
    obtain ⟨front, back, rfl, others, -, rest⟩ := List.filter_eq_cons_iff.mp own.symm
    have others : ∀ other ∈ front, other.inlet ≠ injection.inlet := by
      intro other member same
      exact others other member (decide_eq_true same)
    have after : (host.injectAs injection).2.Connected := (connected.injectAs injection).1.connected connected
    have onwards : Agree ((host.injectAs injection).2.injectAll first)
        ((host.injectAs injection).2.injectAll (front ++ back)) := by
      refine ih after fun number => ?_
      by_cases here : injection.inlet = number
      · subst here
        have none : front.filter (·.inlet = injection.inlet) = [] :=
          List.filter_eq_nil_iff.mpr fun other member => by simp [others other member]
        rw [List.filter_append, none, List.nil_append, rest]
      · have same := orders number
        rw [List.filter_append, List.filter_cons_of_neg (by simp [here]),
          List.filter_cons_of_neg (by simp [here])] at same
        rw [List.filter_append, same]
    have moved := injectAll_pull connected others back
    exact (onwards.cons (injection.inlet, (host.injectAs injection).1)).trans moved.symm

/-! ### States of a host -/

theorem SameSenders.trans {between after : Host μ} (front : host.SameSenders between)
    (back : between.SameSenders after) : host.SameSenders after :=
  ⟨back.inlets.trans front.inlets, back.rings.trans front.rings⟩

theorem Wired.sameSenders {after : Host μ} (wired : host.Wired after) : host.SameSenders after := by
  obtain ⟨_, _, rfl⟩ := wired
  exact ⟨rfl, rfl⟩

theorem withDesk_senders (host : Host μ) (desk : Desk) : host.SameSenders (host.withDesk desk) :=
  ⟨rfl, List.length_modify ..⟩

theorem withMode_senders (host : Host μ) (number : Nat) (mode : UnrollMode) :
    host.SameSenders (host.withMode number mode) := by
  refine ⟨?_, rfl⟩
  unfold withMode
  dsimp only
  rw [List.modify_eq_set_getElem?]
  cases there : host.inlets[number]? with
  | none => rfl
  | some inlet => exact senders_set there rfl

theorem onInlet_senders (number : Nat) {step : Inlet → Channel → Signal → α × Inlet × Channel × Signal}
    (keeps : ∀ inlet channel signal, (step inlet channel signal).2.1.sender = inlet.sender) :
    host.SameSenders (((host.onInlet number step).map (·.2)).getD host) := by
  unfold onInlet
  cases there : host.inlets[number]? with
  | none => exact ⟨rfl, rfl⟩
  | some inlet => exact ⟨senders_set there (keeps ..), List.length_modify ..⟩

theorem removeModule_senders (host : Host μ) (id : ModuleId) : host.SameSenders (host.removeModule id).2.2 := by
  unfold removeModule
  split
  · exact ⟨rfl, rfl⟩
  · exact ⟨rfl, List.length_modify ..⟩

theorem upkeep_senders (host : Host μ) (now : Nat) (reading : ClockPair) :
    host.SameSenders (host.upkeep now reading).2.2 := by
  have resynced : host.SameSenders (host.resyncIfDue now reading).2 := by
    unfold resyncIfDue
    split
    · exact ⟨rfl, rfl⟩
    · refine ⟨rfl, ?_⟩
      dsimp only
      split
      · exact Hub.length_rings_send ..
      · rfl
  refine resynced.trans ⟨rfl, ?_⟩
  exact List.length_map _

theorem upkeepByHand_senders (host : Host μ) (now : Nat) (reading : ClockPair) :
    host.SameSenders (host.upkeepByHand now reading).2 := by
  unfold upkeepByHand
  split
  · exact host.upkeep_senders now reading
  · exact ⟨rfl, rfl⟩

theorem forceResync_senders (host : Host μ) (now : Nat) : host.SameSenders (host.forceResync now) := by
  unfold forceResync
  split <;> exact ⟨rfl, rfl⟩

theorem start_senders (host : Host μ) : host.SameSenders host.start.2 := by
  unfold start
  split
  · split
    · exact ⟨rfl, List.length_map _⟩
    · exact ⟨rfl, rfl⟩
  · exact ⟨rfl, rfl⟩

theorem attend_senders (host : Host μ) (now : Nat) (reading : ClockPair) :
    host.SameSenders (host.attend now reading) := by
  unfold attend
  split
  · dsimp only
    split
    · have taken : host.SameSenders { host with pool := host.pool.takeWake.2 } := ⟨rfl, rfl⟩
      exact taken.trans (upkeep_senders _ now reading)
    · exact ⟨rfl, rfl⟩
  · exact ⟨rfl, rfl⟩

theorem stop_senders (host : Host μ) (now : Nat) (reading : ClockPair) : host.SameSenders (host.stop now reading) := by
  have notified : host.SameSenders { host with pool := host.pool.notify.2 } := ⟨rfl, rfl⟩
  have attended := notified.trans (attend_senders _ now reading)
  exact attended.trans ⟨rfl, rfl⟩

theorem Connected.addInlet (connected : host.Connected) (destination : Destination) (mode : UnrollMode) :
    (host.addInlet destination mode).2.Connected := by
  have inlets : (host.addInlet destination mode).2.inlets.map (·.sender) =
      host.inlets.map (·.sender) ++ [host.hub.rings.length] := List.map_append ..
  have rings : (host.addInlet destination mode).2.hub.rings.length = host.hub.rings.length + 1 :=
    List.length_append ..
  constructor
  · rw [inlets, rings]
    intro sender member
    rcases List.mem_append.mp member with old | new
    · have known := connected.registered sender old
      omega
    · rw [List.mem_singleton] at new
      omega
  · rw [inlets]
    refine List.nodup_append.mpr ⟨connected.distinct, List.nodup_singleton _, ?_⟩
    intro sender old new member
    have known := connected.registered sender old
    rw [List.mem_singleton] at member
    omega

section

variable [Behaviour μ]

theorem process_senders (host : Host μ) (mediaMicros frames : UInt64) :
    host.SameSenders (host.process mediaMicros frames).2.2 := by
  refine ⟨?_, List.length_modify ..⟩
  exact Desk.senders_serveInlets ..

/-- Only a new inlet brings a new sender. -/
theorem perform_senders (host : Host μ) (operation : Operation μ) :
    host.SameSenders (host.perform operation).2 ∨
      ∃ destination mode, operation = .addInlet destination mode := by
  cases operation with
  | addInlet destination mode => exact .inr ⟨destination, mode, rfl⟩
  | schedule | scheduleMessage | inject | cancel | clear => exact .inl (withDesk_senders host _)
  | addModule module => exact .inl ⟨rfl, rfl⟩
  | addChild parent module => exact .inl (addChild_wired host parent module).sameSenders
  | connect parent child => exact .inl (connect_wired host parent child).sameSenders
  | disconnect parent child => exact .inl ⟨rfl, rfl⟩
  | removeModule id => exact .inl (host.removeModule_senders id)
  | send number packet =>
    rw [Host.perform, Host.send, Option.map_map]
    refine .inl (onInlet_senders number fun inlet channel signal => ?_)
    obtain ⟨_, _, changed⟩ := inlet.inject_offer host.clocks packet channel signal
    rw [changed]
  | sendFrames number decoder =>
    rw [Host.perform, Host.sendFrames, Option.map_map]
    refine .inl (onInlet_senders number fun inlet channel signal => ?_)
    obtain ⟨_, _, changed⟩ := inlet.injectFrames_offer host.clocks decoder channel signal
    have sender := congrArg Inlet.sender changed
    exact sender
  | takeWake => exact .inl ⟨rfl, rfl⟩
  | process mediaMicros frames => exact .inl (host.process_senders mediaMicros frames)
  | upkeep now reading => exact .inl (host.upkeepByHand_senders now reading)
  | forceResync now => exact .inl (host.forceResync_senders now)
  | start => exact .inl host.start_senders
  | attend now reading => exact .inl (host.attend_senders now reading)
  | stop now reading => exact .inl (host.stop_senders now reading)

theorem Connected.perform (connected : host.Connected) (operation : Operation μ) :
    (host.perform operation).2.Connected := by
  rcases host.perform_senders operation with same | ⟨destination, mode, rfl⟩
  · exact same.connected connected
  · exact connected.addInlet destination mode

theorem perform_rings (host : Host μ) (operation : Operation μ) :
    host.hub.rings.length ≤ (host.perform operation).2.hub.rings.length := by
  rcases host.perform_senders operation with same | ⟨destination, mode, rfl⟩
  · exact Nat.le_of_eq same.rings.symm
  · have grown : (host.addInlet destination mode).2.hub.rings.length = host.hub.rings.length + 1 :=
      List.length_append ..
    exact Nat.le_of_succ_le (Nat.le_of_eq grown.symm)

/-- The states that a host comes to by operations and changes of mode. -/
inductive Reached (start : Host μ) : Host μ → Prop where
  | start : Reached start start
  | perform {host : Host μ} (reached : Reached start host) (operation : Operation μ) :
      Reached start (host.perform operation).2
  | withMode {host : Host μ} (reached : Reached start host) (number : Nat) (mode : UnrollMode) :
      Reached start (host.withMode number mode)

theorem Connected.reached {start : Host μ} (connected : start.Connected) (reached : start.Reached host) :
    host.Connected := by
  induction reached with
  | start => exact connected
  | perform reached operation ih => exact ih.perform operation
  | withMode reached number mode ih => exact (withMode_senders _ number mode).connected ih

/-- Packets are fed into the inlets of a host between two periods, in one order and in another that is the same
at each inlet. Whatever the packets and the modes are, malformed ones and such that find no room among them, in
both orders each inlet gives the same answers, and the host that is left is the same: its inlets with their
pipes and counts, the rings of diagnostics and their counters, the signal, and so all that it does from then
on. -/
theorem interleavings_agree (settings : Settings) (sampleRate : Float) (period : UInt64) (now : Nat)
    (reading : ClockPair) {host : Host μ} (reached : (initial settings sampleRate period now reading).Reached host)
    (first second : List Injection)
    (orders : ∀ number, first.filter (·.inlet = number) = second.filter (·.inlet = number)) :
    let one := host.injectAll first
    let other := host.injectAll second
    (∀ number, one.1.filter (·.1 = number) = other.1.filter (·.1 = number)) ∧ one.2 = other.2 ∧
      ∀ mediaMicros frames, one.2.process mediaMicros frames = other.2.process mediaMicros frames := by
  intro one other
  have start : (initial settings sampleRate period now reading : Host μ).Connected := ⟨nofun, List.nodup_nil⟩
  obtain ⟨answers, same⟩ := injectAll_agree (start.reached reached) orders
  refine ⟨answers, same, fun mediaMicros frames => ?_⟩
  rw [same]

/-- Two inlets share a host. The first is fed a message that is too long for a payload, then a message, the second
a malformed packet, then the same bundle twice, and has no room for it the second time. -/
theorem interleavings_agree_two :
    let settings : Settings :=
      { diagnosticsCapacity := 2, pipeCapacity := 40, maxPayload := 8, poolClasses := [8], poolPreallocate := 2,
        poolLowWatermark := 0 }
    let start : Host Sequencer := initial settings 48000 256 0 { mediaMicros := 0, wall := ⟨0⟩ }
    let host := ((start.perform (.addInlet .broadcast .full)).2.perform (.addInlet (.module ⟨3⟩) .full)).2
    let short := [0x2F, 0x61, 0, 0, 0x2C, 0, 0, 0]
    let long := [0x2F, 0x61, 0x62, 0x63, 0x64, 0, 0, 0, 0x2C, 0, 0, 0]
    let bundle := bundleTag ++ bigEndian 8 1 ++ bigEndian 4 short.length ++ short
    let first : List Injection :=
      [⟨0, .full, long⟩, ⟨0, .full, short⟩, ⟨1, .full, [1]⟩, ⟨1, .full, bundle⟩, ⟨1, .full, bundle⟩]
    let second : List Injection :=
      [⟨1, .full, [1]⟩, ⟨0, .full, long⟩, ⟨1, .full, bundle⟩, ⟨1, .full, bundle⟩, ⟨0, .full, short⟩]
    start.Reached host ∧ (∀ number, first.filter (·.inlet = number) = second.filter (·.inlet = number)) ∧
      (host.injectAll first).1 =
        [(0, some (.ok 0)), (0, some (.ok 1)), (1, some (.error (.packet (.unknownPacket 1)))), (1, some (.ok 1)),
          (1, some (.ok 0))] ∧
      (host.injectAll first).2 = (host.injectAll second).2 := by
  intro settings start host short long bundle first second
  have reached : start.Reached host := .perform (.perform .start _) _
  have orders : ∀ number, first.filter (·.inlet = number) = second.filter (·.inlet = number) := by
    intro number
    by_cases zero : 0 = number
    · subst zero
      decide
    · by_cases one : 1 = number
      · subst one
        decide
      · simp [first, second, zero, one]
  obtain ⟨-, same, -⟩ :=
    interleavings_agree settings 48000 256 0 { mediaMicros := 0, wall := ⟨0⟩ } reached first second orders
  exact ⟨reached, orders, by decide +kernel, same⟩

end

end Host

end OscHost
