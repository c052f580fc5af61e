import OscHost.Proofs.Host.Interleaving

/-!
# Wake-ups

All inlets share one signal, and a period acknowledges it anew for each of them. Threads may write to their
inlets and flush them at any time, also between two turns of one period (`Scene`), so the turn of one inlet
can clear a notification that was meant for another. Still none is lost: whatever was written to an inlet
behind its last turn has a wake-up queued (`Scene.run_wakes`). What is not interrupted does what the host does
in one piece (`Scene.Faithful`).
-/

namespace OscHost

/-! ### Steps of an injection and of a period -/

theorem Intake.add_counts (destination : Destination) (items : List Item) (intake : Intake) :
    (items.foldl (fun intake item => add destination item.time item.bytes intake) intake).written =
      intake.written + (intake.pipe.accepted (items.map (Item.record destination))).length := by
  induction items generalizing intake with
  | nil => rfl
  | cons item items ih =>
    rw [List.foldl_cons, ih, List.map_cons, Pipe.accepted, Item.record, add]
    rcases intake.pipe.produce { destination, time := item.time, payload := item.bytes } with ⟨_ | _, pipe⟩
    · rfl
    · simp only [List.length_cons]
      omega

namespace Inlet

variable (inlet : Inlet) (clocks : Clocks) (packet : List UInt8) (channel : Channel) (signal : Signal)

theorem inject_counts : (inlet.inject clocks packet channel signal).1.toOption.getD 0 =
    (inlet.pipe.accepted (inlet.records clocks packet)).length := by
  cases parsed : Packet.parse packet with
  | error error =>
    have none : inlet.records clocks packet = [] := by
      rw [records, Clocks.items, unroll_error _ parsed]
      rfl
    rw [inject_malformed inlet clocks channel signal parsed, none]
    rfl
  | ok p =>
    have unrolled : unroll (Intake.handler clocks inlet.destination) inlet.mode packet
        { pipe := inlet.pipe, channel } = _ :=
      unroll_each clocks
        (fun intake item => Intake.add inlet.destination item.time item.bytes intake) inlet.mode parsed _
    rw [inject, unrolled]
    exact (Intake.add_counts inlet.destination (clocks.items inlet.mode packet) _).trans (Nat.zero_add _)

theorem inject_signal : (inlet.inject clocks packet channel signal).2.2.2 =
    if 0 < (inlet.inject clocks packet channel signal).1.toOption.getD 0 then signal.notify.2 else signal := by
  rw [inject]
  cases unroll (Intake.handler clocks inlet.destination) inlet.mode packet { pipe := inlet.pipe, channel } with
  | ok => rfl
  | error => rfl

end Inlet

namespace Host

/-- Write the records of a packet to the pipe of an inlet and leave the signal alone. -/
def feed (host : Host μ) (number : Nat) (packet : List UInt8) : Option (Except WireError Nat × Host μ) :=
  host.onInlet number fun inlet channel signal =>
    let (outcome, inlet, channel, _) := inlet.inject host.clocks packet channel signal
    (outcome, inlet, channel, signal)

/-- Raise the signal of the inlets. The answer is whether this sent the wake-up. -/
def flush (host : Host μ) : Bool × Host μ :=
  let (woke, inbound) := host.inbound.notify
  (woke, { host with inbound })

/-- A packet is sent by writing its records and, if there are any, a flush. -/
theorem send_feed (host : Host μ) (number : Nat) (packet : List UInt8) :
    host.send number packet = (host.feed number packet).map fun (outcome, after) =>
      (outcome.mapError .packet, if 0 < outcome.toOption.getD 0 then after.flush.2 else after) := by
  rw [send, feed, onInlet, onInlet, Option.map_map, Option.map_map]
  refine congrArg (host.inlets[number]?.map ·) (funext fun inlet => ?_)
  have signalled := inlet.inject_signal host.clocks packet (host.hub.channel inlet.sender) host.inbound
  rw [Function.comp_apply, Function.comp_apply]
  dsimp only
  rw [signalled]
  split <;> rfl

theorem feed_counts {host after : Host μ} {number : Nat} {inlet : Inlet} {packet : List UInt8}
    {outcome : Except WireError Nat} (there : host.inlets[number]? = some inlet)
    (fed : host.feed number packet = some (outcome, after)) :
    outcome.toOption.getD 0 = (inlet.pipe.accepted (inlet.records host.clocks packet)).length ∧
      ∃ changed, after.inlets = host.inlets.set number changed ∧
        changed.pipe = inlet.pipe.offer (inlet.records host.clocks packet) := by
  rw [feed, onInlet, there, Option.map_some] at fed
  cases fed
  refine ⟨inlet.inject_counts host.clocks packet _ _, _, rfl, ?_⟩
  obtain ⟨_, _, offered⟩ := inlet.inject_offer host.clocks packet (host.hub.channel inlet.sender) host.inbound
  exact congrArg Inlet.pipe offered

theorem feed_frame {host after : Host μ} {number : Nat} {packet : List UInt8} {outcome : Except WireError Nat}
    (fed : host.feed number packet = some (outcome, after)) :
    number < host.inlets.length ∧ after.inbound = host.inbound ∧
      after.inlets.length = host.inlets.length ∧ after.hub.rings.length = host.hub.rings.length := by
  rw [feed, onInlet, Option.map_eq_some_iff] at fed
  obtain ⟨inlet, there, same⟩ := fed
  cases same
  exact ⟨(List.getElem?_eq_some_iff.mp there).1, rfl, List.length_set, List.length_modify ..⟩

/-- Begin a period: publish the time of its start and give the modules their input turn. -/
def enter [Behaviour μ] (host : Host μ) (mediaMicros frames : UInt64) : Host μ :=
  let (_, modules, desk) := host.inputTurn mediaMicros frames
  { host with clocks := host.periodClocks mediaMicros, modules }.withDesk desk

/-- Give an inlet its turn: acknowledge the signal and take the records. -/
def serve (host : Host μ) (number : Nat) (inlet : Inlet) : Host μ :=
  let (_, pipe, inbound, desk) := host.desk.transfer inlet.pipe host.inbound
  { host with inlets := host.inlets.set number { inlet with pipe }, inbound }.withDesk desk

/-- End a period: dispatch what is due, give the modules their output turn and move on. -/
def leave [Behaviour μ] (host : Host μ) (frames : UInt64) : Host μ :=
  let (events, desk) := host.desk.drain host.frame frames
  let (_, modules) := dispatchAll host.routing events host.modules
  let (_, modules, desk) := runTurn .output host.clocks host.frame frames 0 modules (desk.releaseAll events)
  { host with modules, frame := host.frame + frames }.withDesk desk

/-! A period that runs in one piece keeps its desk in hand, where these steps put it back each time. -/

theorem withDesk_desk (host : Host μ) : host.withDesk host.desk = host := by
  rw [withDesk, desk, Hub.withChannel_channel]

theorem withDesk_withDesk (host : Host μ) (first second : Desk) :
    (host.withDesk first).withDesk second = host.withDesk second := by
  rw [withDesk, withDesk, Hub.withChannel_withChannel]
  rfl

theorem desk_withDesk {host : Host μ} (registered : cycleSender < host.hub.rings.length) (desk : Desk) :
    (host.withDesk desk).desk = desk := by
  rw [withDesk, Host.desk, Hub.channel_withChannel registered]

theorem rings_withDesk (host : Host μ) (desk : Desk) :
    (host.withDesk desk).hub.rings.length = host.hub.rings.length :=
  (withDesk_senders host desk).rings

/-- A period is its beginning, the turns of the inlets, and its end. -/
theorem leave_served [Behaviour μ] {host : Host μ} (registered : cycleSender < host.hub.rings.length)
    (mediaMicros frames : UInt64) :
    let served := host.served mediaMicros frames
    ({ host.enter mediaMicros frames with inlets := served.1, inbound := served.2.1 }.withDesk
      served.2.2).leave frames = (host.process mediaMicros frames).2.2 := by
  intro served
  let begun := host.enter mediaMicros frames
  let ready := { begun with inlets := served.1, inbound := served.2.1 }.withDesk served.2.2
  let after (modules : List (Option μ)) (frame : UInt64) : Host μ :=
    { host with
      clocks := host.periodClocks mediaMicros, modules, inlets := served.1, inbound := served.2.1, frame }
  have still : cycleSender < begun.hub.rings.length := Nat.lt_of_lt_of_eq registered (rings_withDesk ..).symm
  have desk : ready.desk = host.collected mediaMicros frames := desk_withDesk still _
  -- The desk that is put back last replaces those of the steps before it.
  have whole (modules : List (Option μ)) (frame : UInt64) (desk : Desk) :
      { ready with modules, frame }.withDesk desk = (after modules frame).withDesk desk :=
    (withDesk_withDesk ((after modules frame).withDesk _) served.2.2 desk).trans
      (withDesk_withDesk (after modules frame) (host.inputTurn mediaMicros frames).2.2 desk)
  show ready.leave frames = _
  rw [leave, desk]
  exact whole ..

end Host

/-- Where a host stands: between two periods, or in one, after so many inlets had their turn. -/
inductive Stand where
  | between
  | within (count : Nat) (frames : UInt64)
  deriving DecidableEq

/-- A host among the threads that feed it. All of them count in the one set of counters of its hub. -/
structure Scene (μ : Type) where
  host : Host μ
  stand : Stand := .between
  /-- The inlets to which records were written that are not flushed yet. -/
  unflushed : List Nat := []

/-- What the host and the threads around it do next. -/
inductive Scene.Action (μ : Type) where
  | write (number : Nat) (packet : List UInt8)
  | flush (number : Nat)
  | wait
  | enter (mediaMicros frames : UInt64)
  | serve
  | leave
  | other (operation : Host.Operation μ)

/-- What is seen of it. -/
inductive Occurrence where
  | wrote (number written : Nat)
  | flushed (number : Nat) (woke : Bool)
  | waited (woken : Bool)
  | entered
  | served (number : Nat)
  | left
  deriving DecidableEq, Repr

namespace Scene

variable [Behaviour μ]

/-- One action. A thread flushes what it has written before it writes more, waiting and other operations
belong between the periods, and a period ends when every inlet had its turn: what is out of place does
nothing. -/
def act (scene : Scene μ) : Action μ → Option Occurrence × Scene μ
  | .write number packet =>
    if number ∈ scene.unflushed then (none, scene)
    else
      match scene.host.feed number packet with
      | some (outcome, host) =>
        let written := outcome.toOption.getD 0
        (some (.wrote number written), { scene with
          host
          unflushed := if 0 < written then number :: scene.unflushed else scene.unflushed })
      | none => (none, scene)
  | .flush number =>
    if number ∈ scene.unflushed then
      let (woke, host) := scene.host.flush
      (some (.flushed number woke), { scene with host, unflushed := scene.unflushed.erase number })
    else (none, scene)
  | .wait =>
    match scene.stand with
    | .between =>
      let (woken, host) := scene.host.takeWake
      (some (.waited woken), { scene with host })
    | .within .. => (none, scene)
  | .enter mediaMicros frames =>
    match scene.stand with
    | .between =>
      (some .entered, { scene with
        host := scene.host.enter mediaMicros frames
        stand := .within 0 frames })
    | .within .. => (none, scene)
  | .serve =>
    match scene.stand with
    | .between => (none, scene)
    | .within count frames =>
      match scene.host.inlets[count]? with
      | some inlet =>
        (some (.served count), { scene with
          host := scene.host.serve count inlet
          stand := .within (count + 1) frames })
      | none => (none, scene)
  | .leave =>
    match scene.stand with
    | .between => (none, scene)
    | .within count frames =>
      if count = scene.host.inlets.length then
        (some .left, { scene with host := scene.host.leave frames, stand := .between })
      else (none, scene)
  | .other operation =>
    match scene.stand with
    | .between =>
      if operation.isQuiet then (none, { scene with host := (scene.host.perform operation).2 })
      else (none, scene)
    | .within .. => (none, scene)

/-- All that an action can come to. -/
inductive Acts (scene : Scene μ) : Action μ → Option Occurrence → Scene μ → Prop where
  | misplaced {action : Action μ} : scene.Acts action none scene
  | wrote {number : Nat} {packet : List UInt8} {outcome : Except WireError Nat} {host : Host μ}
      (calm : number ∉ scene.unflushed) (fed : scene.host.feed number packet = some (outcome, host)) :
      scene.Acts (.write number packet) (some (.wrote number (outcome.toOption.getD 0)))
        { scene with
          host
          unflushed := if 0 < outcome.toOption.getD 0 then number :: scene.unflushed else scene.unflushed }
  | flushed {number : Nat} (waiting : number ∈ scene.unflushed) :
      scene.Acts (.flush number) (some (.flushed number scene.host.flush.1))
        { scene with host := scene.host.flush.2, unflushed := scene.unflushed.erase number }
  | waited (between : scene.stand = .between) :
      scene.Acts .wait (some (.waited scene.host.takeWake.1)) { scene with host := scene.host.takeWake.2 }
  | entered (between : scene.stand = .between) {mediaMicros frames : UInt64} :
      scene.Acts (.enter mediaMicros frames) (some .entered)
        { scene with host := scene.host.enter mediaMicros frames, stand := .within 0 frames }
  | served {count : Nat} {frames : UInt64} {inlet : Inlet} (stand : scene.stand = .within count frames)
      (there : scene.host.inlets[count]? = some inlet) :
      scene.Acts .serve (some (.served count))
        { scene with host := scene.host.serve count inlet, stand := .within (count + 1) frames }
  | left {count : Nat} {frames : UInt64} (stand : scene.stand = .within count frames)
      (all : count = scene.host.inlets.length) :
      scene.Acts .leave (some .left) { scene with host := scene.host.leave frames, stand := .between }
  | other {operation : Host.Operation μ} (between : scene.stand = .between)
      (quiet : operation.isQuiet = true) :
      scene.Acts (.other operation) none { scene with host := (scene.host.perform operation).2 }

theorem acts (scene : Scene μ) (action : Action μ) :
    scene.Acts action (scene.act action).1 (scene.act action).2 := by
  cases action with
  | write number packet =>
    rw [act]
    split
    · exact .misplaced
    · split
      · exact .wrote ‹_› ‹_›
      · exact .misplaced
  | flush number =>
    rw [act]
    split
    · exact .flushed ‹_›
    · exact .misplaced
  | wait =>
    rw [act]
    split
    · exact .waited ‹_›
    · exact .misplaced
  | enter mediaMicros frames =>
    rw [act]
    split
    · exact .entered ‹_›
    · exact .misplaced
  | serve =>
    rw [act]
    split
    · exact .misplaced
    · split
      · exact .served ‹_› ‹_›
      · exact .misplaced
  | leave =>
    rw [act]
    split
    · exact .misplaced
    · split
      · exact .left ‹_› ‹_›
      · exact .misplaced
  | other operation =>
    rw [act]
    split
    · split
      · exact .other ‹_› ‹_›
      · exact .misplaced
    · exact .misplaced

def run (scene : Scene μ) : List (Action μ) → List Occurrence × Scene μ
  | [] => ([], scene)
  | action :: rest =>
    let (seen, scene) := scene.act action
    let (trace, scene) := scene.run rest
    (seen.toList ++ trace, scene)

theorem run_append (scene : Scene μ) (front back : List (Action μ)) :
    scene.run (front ++ back) =
      ((scene.run front).1 ++ ((scene.run front).2.run back).1, ((scene.run front).2.run back).2) := by
  induction front generalizing scene with
  | nil => rfl
  | cons action front ih =>
    have onwards := ih (scene.act action).2
    rw [List.cons_append, run, run]
    dsimp only
    rw [onwards, List.append_assoc]

/-! ### Undisturbed steps -/

/-- A thread that is not interrupted sends its packet. -/
theorem run_send (scene : Scene μ) {number : Nat} (flushed : number ∉ scene.unflushed)
    (packet : List UInt8) :
    (scene.run [.write number packet, .flush number]).2 =
      { scene with host := ((scene.host.send number packet).map (·.2)).getD scene.host } := by
  have step : (scene.run [.write number packet, .flush number]).2 =
      ((scene.act (.write number packet)).2.act (.flush number)).2 := rfl
  rw [step, Host.send_feed, act, if_neg flushed]
  rcases scene.host.feed number packet with _ | ⟨outcome, after⟩
  · rw [act, if_neg flushed]
    rfl
  · by_cases wrote : 0 < outcome.toOption.getD 0
    · simp [act, wrote]
    · simp [act, wrote, flushed]

theorem run_serve {host : Host μ} (registered : Host.cycleSender < host.hub.rings.length)
    (front back : List Inlet) (inlets : host.inlets = front ++ back) (frames : UInt64)
    (unflushed : List Nat) :
    let served := host.desk.serveInlets back host.inbound
    (run ⟨host, .within front.length frames, unflushed⟩ (List.replicate back.length .serve)).2 =
      ⟨{ host with inlets := front ++ served.1, inbound := served.2.1 }.withDesk served.2.2,
        .within (front.length + back.length) frames, unflushed⟩ := by
  induction back generalizing host front with
  | nil =>
    have same : { host with inlets := front ++ [], inbound := host.inbound }.withDesk host.desk = host := by
      rw [← inlets]
      exact host.withDesk_desk
    exact congrArg (Scene.mk · _ unflushed) same.symm
  | cons inlet back ih =>
    intro served
    have there : host.inlets[front.length]? = some inlet := by simp [inlets]
    let turn := host.desk.transfer inlet.pipe host.inbound
    let next := host.serve front.length inlet
    have first : (act ⟨host, .within front.length frames, unflushed⟩ .serve).2 =
        ⟨next, .within (front.length + 1) frames, unflushed⟩ := by
      rw [act]
      dsimp only
      rw [there]
    have changed : next.inlets = front ++ [{ inlet with pipe := turn.2.1 }] ++ back := by
      simp [next, turn, Host.serve, Host.withDesk, inlets]
    have desk : next.desk = turn.2.2.2 := Host.desk_withDesk registered _
    have still : Host.cycleSender < next.hub.rings.length :=
      Nat.lt_of_lt_of_eq registered (Host.rings_withDesk ..).symm
    have whole (inlets : List Inlet) (inbound : Signal) (desk : Desk) :
        { next with inlets, inbound }.withDesk desk = { host with inlets, inbound }.withDesk desk :=
      Host.withDesk_withDesk { host with inlets, inbound } turn.2.2.2 desk
    have onwards := ih still _ changed
    dsimp only at onwards
    have counted : (front ++ [{ inlet with pipe := turn.2.1 }]).length = front.length + 1 := List.length_append
    rw [desk, whole, counted, List.append_assoc, Nat.add_right_comm] at onwards
    rw [List.length_cons, List.replicate_succ, run]
    dsimp only
    rw [first, onwards]
    rfl

/-- A host that is not interrupted runs its period. -/
theorem run_period (scene : Scene μ) (between : scene.stand = .between)
    (registered : Host.cycleSender < scene.host.hub.rings.length) (mediaMicros frames : UInt64) :
    (scene.run (.enter mediaMicros frames :: List.replicate scene.host.inlets.length .serve ++ [.leave])).2 =
      { scene with host := (scene.host.process mediaMicros frames).2.2 } := by
  obtain ⟨host, stand, unflushed⟩ := scene
  subst between
  let begun := host.enter mediaMicros frames
  let served := host.served mediaMicros frames
  let ready := { begun with inlets := served.1, inbound := served.2.1 }.withDesk served.2.2
  have still : Host.cycleSender < begun.hub.rings.length :=
    Nat.lt_of_lt_of_eq registered (Host.rings_withDesk ..).symm
  have turns : (run ⟨begun, .within 0 frames, unflushed⟩ (List.replicate host.inlets.length .serve)).2 =
      ⟨ready, .within host.inlets.length frames, unflushed⟩ := by
    have desk : begun.desk = (host.inputTurn mediaMicros frames).2.2 := Host.desk_withDesk registered _
    have each := run_serve still [] begun.inlets rfl frames unflushed
    rw [desk, List.length_nil, Nat.zero_add] at each
    exact each
  have all : host.inlets.length = ready.inlets.length := (Desk.length_serveInlets ..).symm
  have left : ready.leave frames = (host.process mediaMicros frames).2.2 :=
    Host.leave_served registered mediaMicros frames
  have first : (act ⟨host, .between, unflushed⟩ (.enter mediaMicros frames)).2 =
      ⟨begun, .within 0 frames, unflushed⟩ := rfl
  rw [List.cons_append, run]
  dsimp only
  rw [first, run_append]
  dsimp only
  rw [turns, run, act]
  dsimp only
  rw [if_pos all, left]
  rfl

/-- What a write shows is what the pipe of the inlet took, and what is not interrupted does what the host does
in one piece. -/
structure Faithful (scene : Scene μ) : Prop where
  wrote : ∀ number packet written after,
    scene.act (.write number packet) = (some (.wrote number written), after) →
    ∃ inlet, scene.host.inlets[number]? = some inlet ∧
      written = (inlet.pipe.accepted (inlet.records scene.host.clocks packet)).length ∧
      ∃ changed, after.host.inlets = scene.host.inlets.set number changed ∧
        changed.pipe = inlet.pipe.offer (inlet.records scene.host.clocks packet)
  sent : ∀ number, number ∉ scene.unflushed → ∀ packet,
    (scene.run [.write number packet, .flush number]).2 =
      { scene with host := ((scene.host.send number packet).map (·.2)).getD scene.host }
  processed : scene.stand = .between → ∀ mediaMicros frames,
    (scene.run (.enter mediaMicros frames :: List.replicate scene.host.inlets.length .serve ++ [.leave])).2 =
      { scene with host := (scene.host.process mediaMicros frames).2.2 }

theorem faithful {scene : Scene μ} (registered : Host.cycleSender < scene.host.hub.rings.length) :
    scene.Faithful where
  wrote number packet written after acted := by
    have acts := scene.acts (.write number packet)
    rw [acted] at acts
    cases acts with
    | wrote _ fed =>
      obtain ⟨inlet, there⟩ : ∃ inlet, scene.host.inlets[number]? = some inlet :=
        ⟨_, List.getElem?_eq_getElem (Host.feed_frame fed).1⟩
      exact ⟨inlet, there, Host.feed_counts there fed⟩
  sent _ flushed packet := scene.run_send flushed packet
  processed between mediaMicros frames := scene.run_period between registered mediaMicros frames

/-- No sender of diagnostics is lost. -/
theorem Acts.rings {scene after : Scene μ} {action : Action μ} {o : Option Occurrence}
    (acts : scene.Acts action o after) : scene.host.hub.rings.length ≤ after.host.hub.rings.length := by
  cases acts with
  | wrote _ fed => exact Nat.le_of_eq (Host.feed_frame fed).2.2.2.symm
  | entered | served | left => exact Nat.le_of_eq (Host.rings_withDesk ..).symm
  | other => exact scene.host.perform_rings _
  | misplaced | flushed | waited => exact Nat.le_refl _

theorem run_rings (scene : Scene μ) (actions : List (Action μ)) :
    scene.host.hub.rings.length ≤ (scene.run actions).2.host.hub.rings.length := by
  induction actions generalizing scene with
  | nil => exact Nat.le_refl _
  | cons action actions ih => exact Nat.le_trans (scene.acts action).rings (ih _)

end Scene

/-! ### What was seen since -/

/-- Something was seen, and what would settle it was not seen since. -/
def Since (mark reset : Occurrence → Prop) (trace : List Occurrence) : Prop :=
  ∃ before o after, trace = before ++ o :: after ∧ mark o ∧ ∀ p ∈ after, ¬reset p

/-- A record was written to an inlet since its last turn. -/
def Fresh (trace : List Occurrence) (number : Nat) : Prop :=
  Since (fun o => ∃ written, 0 < written ∧ o = .wrote number written) (· = .served number) trace

/-- Every wait that took a wake-up was followed by a period. -/
def Settled (trace : List Occurrence) : Prop := ¬Since (· = .waited true) (· = .left) trace

section

variable {mark reset : Occurrence → Prop} {trace : List Occurrence} {o : Occurrence}

theorem not_since_nil : ¬Since mark reset [] := by
  rintro ⟨before, o, after, whole, -⟩
  exact List.append_ne_nil_of_right_ne_nil before (List.cons_ne_nil o after) whole.symm

theorem since_concat : Since mark reset (trace ++ [o]) ↔ mark o ∨ Since mark reset trace ∧ ¬reset o := by
  constructor
  · rintro ⟨before, p, after, whole, marked, still⟩
    rcases List.eq_nil_or_concat after with rfl | ⟨between, q, rfl⟩
    · obtain ⟨-, rfl⟩ := List.append_inj' whole rfl |>.imp_right List.singleton_inj.mp
      exact .inl marked
    · rw [List.concat_eq_append, ← List.cons_append, ← List.append_assoc] at whole
      obtain ⟨rfl, same⟩ := List.append_inj' whole rfl
      obtain rfl := List.singleton_inj.mp same
      rw [List.concat_eq_append, List.forall_mem_append] at still
      exact .inr ⟨⟨before, p, between, rfl, marked, still.1⟩, still.2 _ List.mem_cons_self⟩
  · rintro (marked | ⟨⟨before, p, after, rfl, marked, still⟩, last⟩)
    · exact ⟨trace, o, [], rfl, marked, List.forall_mem_nil _⟩
    · refine ⟨before, p, after ++ [o], by simp, marked, ?_⟩
      exact List.forall_mem_append.mpr ⟨still, List.forall_mem_singleton.mpr last⟩

/-- What is seen only when it is settled, is settled between any two times. -/
theorem settled_between
    (once : ∀ before p after, trace = before ++ p :: after → mark p → ¬Since mark reset before)
    {before middle after : List Occurrence} {first second : Occurrence} (marked : mark first)
    (again : mark second) (whole : trace = before ++ first :: (middle ++ second :: after)) :
    ∃ p ∈ middle, reset p := by
  by_contra never
  refine once (before ++ first :: middle) second after (by rw [whole]; simp) again ?_
  exact ⟨before, first, middle, rfl, marked, fun p member settled => never ⟨p, member, settled⟩⟩

end

/-- A wake-up was taken, and none was sent since. -/
def Taken (trace : List Occurrence) : Prop :=
  Since (· = .waited true) (fun o => ∃ number, o = .flushed number true) trace

/-- A wake-up was sent, and no inlet had its turn since. -/
def Raised (trace : List Occurrence) : Prop :=
  Since (fun o => ∃ number, o = .flushed number true) (fun o => ∃ number, o = .served number) trace

section

variable {trace : List Occurrence} {o : Occurrence} {number : Nat}

theorem Fresh.cases (fresh : Fresh (trace ++ [o]) number) :
    (∃ written, 0 < written ∧ o = .wrote number written) ∨ Fresh trace number ∧ o ≠ .served number :=
  since_concat.mp fresh

theorem Fresh.before (fresh : Fresh (trace ++ [o]) number) (other : ∀ written, o ≠ .wrote number written) :
    Fresh trace number := by
  rcases fresh.cases with ⟨written, -, same⟩ | ⟨old, -⟩
  · exact absurd same (other written)
  · exact old

theorem settled_concat : Settled (trace ++ [o]) ↔ o ≠ .waited true ∧ (o = .left ∨ Settled trace) := by
  rw [Settled, since_concat, Settled]
  tauto

theorem Taken.before (taken : Taken (trace ++ [o])) (other : o ≠ .waited true) :
    Taken trace ∧ ∀ number, o ≠ .flushed number true := by
  obtain ⟨old, silent⟩ := (since_concat.mp taken).resolve_left other
  exact ⟨old, fun number same => silent ⟨number, same⟩⟩

theorem Raised.before (raised : Raised (trace ++ [o])) (other : ∀ number, o ≠ .flushed number true) :
    Raised trace ∧ ∀ number, o ≠ .served number := by
  rcases since_concat.mp raised with ⟨number, same⟩ | ⟨old, calm⟩
  · exact absurd same (other number)
  · exact ⟨old, fun number same => calm ⟨number, same⟩⟩

end

/-! ### The signal -/

namespace Host

theorem serve_inbound (host : Host μ) (number : Nat) (inlet : Inlet) :
    (host.serve number inlet).inbound = host.inbound.acknowledge := by
  have acknowledged : (host.desk.transfer inlet.pipe host.inbound).2.2.1 = host.inbound.acknowledge := by
    rw [Desk.transfer]
    dsimp only
    split <;> rfl
  exact acknowledged

end Host

/-! ### No wake-up is lost -/

/-- Whether the records of an inlet are sure of their wake-up: in a period once the inlet had its turn, and
otherwise if every wait that took a wake-up was followed by a period. -/
def Stand.Guards (trace : List Occurrence) (number : Nat) : Stand → Prop
  | between => Settled trace
  | within count _ => number < count

theorem Stand.Guards.before {trace : List Occurrence} {o : Occurrence} {number : Nat} {stand : Stand}
    (guards : stand.Guards (trace ++ [o]) number) (other : o ≠ .left) : stand.Guards trace number := by
  cases stand with
  | between => exact (settled_concat.mp guards).2.resolve_left other
  | within => exact guards

namespace Scene

variable {trace : List Occurrence} {scene : Scene μ}

/-- What was seen and what is there fit together. A pending signal has its wake-up queued, except from the
wait that took it to the first turn of the period behind it: `Guards` leaves that time out. -/
structure Sound (trace : List Occurrence) (scene : Scene μ) : Prop where
  opened : ∀ number, Fresh trace number → number < scene.host.inlets.length
  unflushed : ∀ number ∈ scene.unflushed, number < scene.host.inlets.length
  idle : scene.host.inlets.length = 0 → scene.host.inbound.pending = false
  fresh : ∀ number, scene.stand.Guards trace number → Fresh trace number → number ∉ scene.unflushed →
    scene.host.inbound.queued = true
  pending : ∀ number, scene.stand.Guards trace number → scene.host.inbound.pending = true →
    scene.host.inbound.queued = true
  taken : Taken trace → scene.host.inbound.queued = false
  raised : Raised trace → scene.host.inbound.pending = true

theorem sound_initial (settings : Settings) (sampleRate : Float) (period : UInt64) (now : Nat)
    (reading : ClockPair) : Sound [] { host := Host.initial settings sampleRate period now reading : Scene μ } :=
  ⟨fun _ fresh => (not_since_nil fresh).elim, List.forall_mem_nil _, fun _ => rfl,
    fun _ _ fresh => (not_since_nil fresh).elim, fun _ _ pending => (nomatch pending),
    fun taken => (not_since_nil taken).elim, fun raised => (not_since_nil raised).elim⟩

theorem Sound.other (sound : scene.Sound trace) {host : Host μ} (inbound : host.inbound = scene.host.inbound)
    (inlets : scene.host.inlets.length ≤ host.inlets.length) : Sound trace { scene with host } := by
  obtain ⟨opened, unflushed, idle, fresh, pending, taken, raised⟩ := sound
  rw [← inbound] at idle fresh pending taken raised
  exact ⟨fun number wrote => Nat.lt_of_lt_of_le (opened number wrote) inlets,
    fun number member => Nat.lt_of_lt_of_le (unflushed number member) inlets,
    fun none => idle (Nat.eq_zero_of_le_zero (none ▸ inlets)), fresh, pending, taken, raised⟩

theorem Sound.write (sound : scene.Sound trace) {host : Host μ} {number written : Nat}
    (there : number < scene.host.inlets.length) (inbound : host.inbound = scene.host.inbound)
    (inlets : host.inlets.length = scene.host.inlets.length) :
    Sound (trace ++ [.wrote number written]) { scene with
      host
      unflushed := if 0 < written then number :: scene.unflushed else scene.unflushed } := by
  obtain ⟨opened, unflushed, idle, fresh, pending, taken, raised⟩ := sound
  rw [← inlets] at there opened unflushed idle
  rw [← inbound] at idle fresh pending taken raised
  refine ⟨fun other wrote => ?_, fun other member => ?_, idle, fun other guards wrote flushed => ?_,
    fun other guards => pending other (guards.before nofun), fun last => taken (last.before nofun).1,
    fun last => raised (last.before nofun).1⟩
  · rcases wrote.cases with ⟨_, _, same⟩ | ⟨old, -⟩
    · cases same
      exact there
    · exact opened other old
  · split at member
    · rcases List.mem_cons.mp member with rfl | member
      · exact there
      · exact unflushed other member
    · exact unflushed other member
  · rcases wrote.cases with ⟨_, some, same⟩ | ⟨old, -⟩
    · -- What was just written is not flushed yet.
      cases same
      rw [if_pos some] at flushed
      exact absurd List.mem_cons_self flushed
    · refine fresh other (guards.before nofun) old fun member => flushed ?_
      split
      · exact List.mem_cons_of_mem _ member
      · exact member

theorem Sound.flush (sound : scene.Sound trace) {number : Nat} (waiting : number ∈ scene.unflushed) :
    Sound (trace ++ [.flushed number scene.host.flush.1]) { scene with
      host := scene.host.flush.2
      unflushed := scene.unflushed.erase number } := by
  obtain ⟨opened, unflushed, idle, fresh, pending, taken, raised⟩ := sound
  have alert (other : Nat) (guards : scene.stand.Guards trace other) :
      scene.host.flush.2.inbound.queued = true := by
    show scene.host.inbound.notify.2.queued = true
    cases waits : scene.host.inbound.pending with
    | true =>
      rw [Signal.notify_of_pending waits]
      exact pending other guards waits
    | false => rw [Signal.notify_of_calm waits]
  refine ⟨fun other wrote => opened other (wrote.before nofun),
    fun other member => unflushed other (List.mem_of_mem_erase member), fun none => ?_,
    fun other guards _ _ => alert other (guards.before nofun),
    fun other guards _ => alert other (guards.before nofun), fun last => ?_,
    fun _ => scene.host.inbound.pending_notify⟩
  · have there := unflushed number waiting
    rw [show scene.host.inlets.length = 0 from none] at there
    exact absurd there (Nat.not_lt_zero _)
  · -- A flush that sent no wake-up leaves the signal as it was.
    obtain ⟨old, silent⟩ := last.before nofun
    have still : scene.host.flush.2.inbound = scene.host.inbound := by
      have asleep : scene.host.inbound.notify.1 ≠ true := fun woke => silent number (congrArg _ woke)
      show scene.host.inbound.notify.2 = scene.host.inbound
      cases waits : scene.host.inbound.pending with
      | true => rw [Signal.notify_of_pending waits]
      | false =>
        rw [Signal.notify_of_calm waits] at asleep
        exact absurd rfl asleep
    rw [still]
    exact taken old

theorem Sound.wait (sound : scene.Sound trace) (between : scene.stand = .between) :
    Sound (trace ++ [.waited scene.host.takeWake.1]) { scene with host := scene.host.takeWake.2 } := by
  obtain ⟨opened, unflushed, idle, fresh, pending, taken, raised⟩ := sound
  -- A wait that took a wake-up is not followed by a period yet, so nothing is sure; one that took none
  -- found nothing to take.
  have none (other : Nat) (guards : scene.stand.Guards (trace ++ [.waited scene.host.takeWake.1]) other) :
      ¬scene.host.inbound.queued = true := by
    intro queued
    rw [between] at guards
    exact (settled_concat.mp guards).1 (congrArg _ queued)
  refine ⟨fun other wrote => opened other (wrote.before nofun), unflushed, idle,
    fun other guards wrote flushed => ?_, fun other guards raised => ?_, fun _ => rfl,
    fun last => raised (last.before nofun).1⟩
  · exact absurd (fresh other (guards.before nofun) (wrote.before nofun) flushed) (none other guards)
  · exact absurd (pending other (guards.before nofun) raised) (none other guards)

variable [Behaviour μ]

theorem Sound.enter (sound : scene.Sound trace) (mediaMicros frames : UInt64) :
    Sound (trace ++ [.entered]) { scene with
      host := scene.host.enter mediaMicros frames
      stand := .within 0 frames } := by
  obtain ⟨opened, unflushed, idle, fresh, pending, taken, raised⟩ := sound
  exact ⟨fun other wrote => opened other (wrote.before nofun), unflushed, idle,
    fun other guards => absurd guards (Nat.not_lt_zero other),
    fun other guards => absurd guards (Nat.not_lt_zero other), fun last => taken (last.before nofun).1,
    fun last => raised (last.before nofun).1⟩

omit [Behaviour μ] in
theorem Sound.serve (sound : scene.Sound trace) {count : Nat} {frames : UInt64}
    (stand : scene.stand = .within count frames) (inlet : Inlet) :
    Sound (trace ++ [.served count]) { scene with
      host := scene.host.serve count inlet
      stand := .within (count + 1) frames } := by
  obtain ⟨opened, unflushed, idle, fresh, pending, taken, raised⟩ := sound
  have inlets : (scene.host.serve count inlet).inlets.length = scene.host.inlets.length :=
    List.length_set
  have inbound := scene.host.serve_inbound count inlet
  have calm : ¬(scene.host.serve count inlet).inbound.pending = true := by
    rw [inbound]
    exact Bool.false_ne_true
  rw [stand] at fresh
  refine ⟨fun other wrote => inlets ▸ opened other (wrote.before nofun),
    fun other member => inlets ▸ unflushed other member, fun _ => Bool.eq_false_iff.mpr calm,
    fun other guards wrote flushed => ?_, fun other _ raised => absurd raised calm, fun last => ?_,
    fun last => absurd rfl ((last.before nofun).2 count)⟩
  · obtain ⟨old, elsewhere⟩ := wrote.cases.resolve_left nofun
    have served : other < count := by
      rcases Nat.lt_succ_iff_lt_or_eq.mp guards with before | rfl
      · exact before
      · exact absurd rfl elsewhere
    rw [inbound]
    exact fresh other served old flushed
  · rw [inbound]
    exact taken (last.before nofun).1

theorem Sound.leave (sound : scene.Sound trace) {count : Nat} {frames : UInt64}
    (stand : scene.stand = .within count frames) (all : count = scene.host.inlets.length) :
    Sound (trace ++ [.left]) { scene with host := scene.host.leave frames, stand := .between } := by
  obtain ⟨opened, unflushed, idle, fresh, pending, taken, raised⟩ := sound
  rw [stand] at fresh pending
  refine ⟨fun other wrote => opened other (wrote.before nofun), unflushed, idle,
    fun other _ wrote flushed => ?_, fun other _ raised => ?_, fun last => taken (last.before nofun).1,
    fun last => raised (last.before nofun).1⟩
  · have old := wrote.before nofun
    exact fresh other (all ▸ opened other old) old flushed
  · -- Without inlets nobody has raised the signal.
    rcases Nat.eq_zero_or_pos count with none | some
    · exact absurd (idle (all ▸ none)) (Bool.ne_false_iff.mpr raised)
    · exact pending 0 some raised

theorem Acts.sound {after : Scene μ} {action : Action μ} {o : Option Occurrence}
    (acts : scene.Acts action o after) (sound : scene.Sound trace) : Sound (trace ++ o.toList) after := by
  cases acts with
  | misplaced =>
    rw [Option.toList_none, List.append_nil]
    exact sound
  | wrote _ fed =>
    obtain ⟨there, inbound, inlets, -⟩ := Host.feed_frame fed
    exact sound.write there inbound inlets
  | flushed waiting => exact sound.flush waiting
  | waited between => exact sound.wait between
  | entered between => exact sound.enter _ _
  | served stand _ => exact sound.serve stand _
  | left stand all => exact sound.leave stand all
  | other _ quiet =>
    obtain ⟨inbound, inlets⟩ := scene.host.perform_quiet quiet
    rw [Option.toList_none, List.append_nil]
    refine sound.other inbound ?_
    rcases inlets with same | ⟨_, _, opened⟩
    · exact Nat.le_of_eq (congrArg List.length same.symm)
    · rw [opened, List.length_append]
      exact Nat.le_add_right _ _

theorem run_sound (sound : scene.Sound trace) (actions : List (Action μ)) :
    Sound (trace ++ (scene.run actions).1) (scene.run actions).2 := by
  induction actions generalizing scene trace with
  | nil =>
    rw [run, List.append_nil]
    exact sound
  | cons action actions ih =>
    have onwards := ih ((scene.acts action).sound sound)
    rw [List.append_assoc] at onwards
    exact onwards

/-- Whatever is seen in a run is seen of one action, in the scene that what was seen before has led to. -/
theorem run_seen {actions : List (Action μ)} {before after : List Occurrence} {o : Occurrence}
    (seen : (scene.run actions).1 = before ++ o :: after) :
    ∃ front action after, (scene.run front).1 = before ∧
      (scene.run front).2.Acts action (some o) after := by
  induction actions generalizing scene before with
  | nil => exact absurd seen.symm (List.append_ne_nil_of_right_ne_nil before (List.cons_ne_nil o after))
  | cons action actions ih =>
    have whole : (scene.act action).1.toList ++ ((scene.act action).2.run actions).1 =
      before ++ o :: after := seen
    have longer (front : List (Action μ)) : (scene.run (action :: front)).1 =
      (scene.act action).1.toList ++ ((scene.act action).2.run front).1 := rfl
    cases first : (scene.act action).1 with
    | none =>
      rw [first] at whole
      obtain ⟨front, last, after, same, reached⟩ := ih whole
      refine ⟨action :: front, last, after, ?_, reached⟩
      rw [longer, first, same]
      rfl
    | some p =>
      rw [first] at whole
      cases before with
      | nil =>
        obtain ⟨rfl, -⟩ := List.cons.inj whole
        exact ⟨[], action, _, rfl, first ▸ scene.acts action⟩
      | cons q before =>
        obtain ⟨rfl, rest⟩ := List.cons.inj whole
        obtain ⟨front, last, after, same, reached⟩ := ih rest
        refine ⟨action :: front, last, after, ?_, reached⟩
        rw [longer, first, same]
        rfl

/-- A wait takes what is queued, and a flush sends a wake-up only where the signal was not raised. -/
theorem Acts.signal {after : Scene μ} {action : Action μ} {o : Occurrence}
    (acts : scene.Acts action (some o) after) :
    (o = .waited true → scene.host.inbound.queued = true) ∧
      ∀ number, o = .flushed number true → scene.host.inbound.pending = false := by
  cases acts with
  | waited => exact ⟨Occurrence.waited.inj, nofun⟩
  | flushed =>
    refine ⟨nofun, fun number same => ?_⟩
    have woke : scene.host.inbound.notify.1 = true := (Occurrence.flushed.inj same).2
    refine Bool.eq_false_iff.mpr fun waits => ?_
    rw [Signal.notify_of_pending waits] at woke
    cases woke
  | wrote | entered | served | left => exact ⟨nofun, nofun⟩

/-- Only a wait takes the wake-up. -/
theorem Acts.queued {after : Scene μ} {action : Action μ} {o : Option Occurrence}
    (acts : scene.Acts action o after) (busy : action ≠ .wait)
    (queued : scene.host.inbound.queued = true) : after.host.inbound.queued = true := by
  cases acts with
  | waited => exact absurd rfl busy
  | wrote _ fed => exact (Host.feed_frame fed).2.1 ▸ queued
  | flushed =>
    show scene.host.inbound.notify.2.queued = true
    cases waits : scene.host.inbound.pending with
    | true => rwa [Signal.notify_of_pending waits]
    | false => rw [Signal.notify_of_calm waits]
  | served => exact (scene.host.serve_inbound _ _) ▸ queued
  | other _ quiet => exact (scene.host.perform_quiet quiet).1 ▸ queued
  | misplaced | entered | left => exact queued

theorem run_queued (queued : scene.host.inbound.queued = true) {actions : List (Action μ)}
    (busy : ∀ action ∈ actions, action ≠ .wait) : (scene.run actions).2.host.inbound.queued = true := by
  induction actions generalizing scene with
  | nil => exact queued
  | cons action actions ih =>
    obtain ⟨first, others⟩ := List.forall_mem_cons.mp busy
    exact ih ((scene.acts action).queued first queued) others

/-- No wake-up is lost. A host between two periods for which every wait that took a wake-up was followed by a
period, and an inlet to which something was written since its last turn, and flushed: a wake-up is queued,
and whatever else happens, the next wait takes it. Between two waits that took a wake-up there is a flush
that sent one, so there is never more than one; and between two flushes that sent one an inlet had its turn. -/
theorem run_wakes (settings : Settings) (sampleRate : Float) (period : UInt64) (now : Nat)
    (reading : ClockPair) (actions : List (Action μ)) :
    let start : Scene μ := { host := Host.initial settings sampleRate period now reading }
    let trace := (start.run actions).1
    let scene := (start.run actions).2
    (scene.stand = .between → Settled trace →
      ∀ number, Fresh trace number → number ∉ scene.unflushed →
        scene.host.inbound.queued = true ∧
          ∀ others : List (Action μ), (∀ action ∈ others, action ≠ .wait) →
            (scene.run others).2.host.takeWake.1 = true) ∧
      (∀ before middle after, trace = before ++ .waited true :: (middle ++ .waited true :: after) →
        ∃ number, .flushed number true ∈ middle) ∧
      (∀ before middle after first second,
        trace = before ++ .flushed first true :: (middle ++ .flushed second true :: after) →
        ∃ number, .served number ∈ middle) ∧
      scene.Faithful := by
  intro start trace scene
  have sound (actions : List (Action μ)) : Sound (start.run actions).1 (start.run actions).2 :=
    run_sound (sound_initial settings sampleRate period now reading) actions
  refine ⟨fun between settled number fresh flushed => ?_, fun before middle after whole => ?_,
    fun before middle after first second whole => ?_, faithful ?_⟩
  · have guards : scene.stand.Guards trace number := by
      rw [between]
      exact settled
    have queued := (sound actions).fresh number guards fresh flushed
    exact ⟨queued, fun others busy => run_queued queued busy⟩
  · have once : ∀ before p after, trace = before ++ p :: after → p = .waited true → ¬Taken before := by
      rintro before _ after split rfl taken
      obtain ⟨front, action, _, rfl, acts⟩ := run_seen split
      exact absurd (acts.signal.1 rfl) (Bool.eq_false_iff.mp ((sound front).taken taken))
    obtain ⟨_, member, number, rfl⟩ := settled_between once rfl rfl whole
    exact ⟨number, member⟩
  · have once : ∀ before p after, trace = before ++ p :: after →
        (∃ number, p = .flushed number true) → ¬Raised before := by
      rintro before _ after split ⟨number, rfl⟩ raised
      obtain ⟨front, action, _, rfl, acts⟩ := run_seen split
      exact absurd ((sound front).raised raised) (Bool.eq_false_iff.mp (acts.signal.2 number rfl))
    obtain ⟨_, member, number, rfl⟩ := settled_between once ⟨first, rfl⟩ ⟨second, rfl⟩ whole
    exact ⟨number, member⟩
  · exact Nat.lt_of_lt_of_le (Nat.lt_succ_self Host.cycleSender) (start.run_rings actions)

/-- A record enters the first inlet when that had its turn and the second had not, whose turn then clears
the notification. -/
theorem run_wakes_between_turns :
    let start : Scene Sequencer :=
      { host := Host.initial { queueCapacity := 4 } 48000 256 0 { mediaMicros := 0, wall := ⟨0⟩ } }
    let actions : List (Action Sequencer) :=
      [.other (.addInlet .broadcast .full), .other (.addInlet .broadcast .full), .enter 0 256, .serve,
        .write 0 [0x2F, 0x61, 0, 0, 0x2C, 0, 0, 0], .flush 0, .serve, .leave]
    let trace : List Occurrence := [.entered, .served 0, .wrote 0 1, .flushed 0 true, .served 1, .left]
    let scene := (start.run actions).2
    (start.run actions).1 = trace ∧ scene.stand = .between ∧ Settled trace ∧ Fresh trace 0 ∧
      0 ∉ scene.unflushed ∧ scene.host.inbound.pending = false ∧ scene.host.inbound.queued = true := by
  intro start actions trace scene
  have seen : (start.run actions).1 = trace := by decide +kernel
  have between : scene.stand = .between := by decide +kernel
  have flushed : 0 ∉ scene.unflushed := by decide +kernel
  have settled : Settled trace := by
    rintro ⟨before, _, after, whole, rfl, -⟩
    have waited : .waited true ∈ trace := by
      rw [whole]
      exact List.mem_append_right _ List.mem_cons_self
    exact absurd waited (by decide)
  have fresh : Fresh trace 0 :=
    ⟨[.entered, .served 0], .wrote 0 1, [.flushed 0 true, .served 1, .left], rfl, ⟨1, by decide, rfl⟩,
      by decide⟩
  obtain ⟨wakes, -⟩ :=
    run_wakes { queueCapacity := 4 } 48000 256 0 { mediaMicros := 0, wall := ⟨0⟩ } actions
  obtain ⟨queued, -⟩ := wakes between (seen ▸ settled) 0 (seen ▸ fresh) flushed
  exact ⟨seen, between, settled, fresh, flushed, by decide +kernel, queued⟩

end Scene

end OscHost
