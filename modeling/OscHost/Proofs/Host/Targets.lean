import OscHost.Proofs.Host.Graph
import OscHost.Proofs.Host.Injection

/-!
# Who receives what

Whatever is done with a host, its graph changes by one of a few steps (`perform_step`), so its targets are
modules that are there, in the order in which they were registered. A period hands every event to each of
its targets once and to nobody else. A module is torn down once, when it is removed or with its host, and
hears nothing afterwards (`run_targets`).
-/

namespace OscHost

/-! ### Routing -/

namespace Routing

variable {r : Routing} {parent child id : ModuleId}

theorem mem_children : child ∈ r.targets (.module parent) ↔ (parent, child) ∈ r.connections := by
  rw [targets, List.mem_map]
  constructor
  · rintro ⟨⟨first, second⟩, member, rfl⟩
    obtain ⟨member, same⟩ := List.mem_filter.mp member
    rwa [← of_decide_eq_true same]
  · intro member
    exact ⟨(parent, child), List.mem_filter.mpr ⟨member, decide_eq_true rfl⟩, rfl⟩

theorem targets_addTopLevel (new : id ∉ r.targets .broadcast) :
    (r.addTopLevel id).targets = Function.update r.targets .broadcast (r.targets .broadcast ++ [id]) := by
  have absent : id ∉ r.topLevel := new
  funext destination
  rw [addTopLevel, if_neg absent]
  cases destination <;> rfl

theorem targets_connect (new : child ∉ r.targets (.module parent)) :
    (r.connect parent child).targets =
      Function.update r.targets (.module parent) (r.targets (.module parent) ++ [child]) := by
  rw [mem_children] at new
  funext destination
  rw [connect, if_neg new]
  cases destination with
  | broadcast => rfl
  | module id =>
    by_cases same : id = parent
    · subst same
      simp [targets]
    · have other : Destination.module id ≠ .module parent := fun equal => same (Destination.module.inj equal)
      rw [Function.update_of_ne other]
      simp [targets, Ne.symm same]

theorem connect_again (old : child ∈ r.targets (.module parent)) : r.connect parent child = r := by
  rw [connect, if_pos (mem_children.mp old)]

theorem targets_filter (r : Routing) (topLevel : List ModuleId) (keep : ModuleId × ModuleId → Bool)
    (parent : ModuleId) :
    (⟨topLevel, r.connections.filter keep⟩ : Routing).targets (.module parent) =
      (r.targets (.module parent)).filter fun child => keep (parent, child) := by
  simp only [targets, List.filter_map, List.filter_filter]
  congr 1
  apply List.filter_congr
  rintro ⟨first, second⟩ -
  by_cases same : first = parent
  · subst same
    simp
  · simp [same]

theorem targets_disconnect :
    (r.disconnect parent child).2.targets =
      Function.update r.targets (.module parent) ((r.targets (.module parent)).filter (· ≠ child)) := by
  funext destination
  rw [disconnect]
  cases destination with
  | broadcast => rfl
  | module id =>
    rw [targets_filter, Function.update_apply]
    split
    · rename_i same
      cases same
      simp
    · rename_i other
      refine List.filter_eq_self.mpr fun second _ => ?_
      simp only [ne_eq, Prod.mk.injEq, decide_eq_true_eq]
      exact fun same => other (congrArg _ same.1)

theorem targets_remove :
    (r.remove id).targets = fun destination =>
      if destination = .module id then [] else (r.targets destination).filter (· ≠ id) := by
  funext destination
  rw [remove]
  cases destination with
  | broadcast => rfl
  | module parent =>
    rw [targets_filter]
    split
    · rename_i same
      cases same
      simp
    · rename_i other
      have apart : parent ≠ id := fun same => other (congrArg _ same)
      simp [apart]

end Routing

/-! ### Handing over -/

/-- Which modules are there. -/
def presence (modules : List (Option μ)) : List Bool := modules.map Option.isSome

/-- An event leaves the queue and is handed to its targets. -/
def Event.handedTo (event : Event) (targets : List ModuleId) : List Call :=
  .dispatch event :: targets.map fun id => .deliver id event.time event.bytes

/-- The module that is called. -/
def Call.recipient? : Call → Option ModuleId
  | request _ period _ => some period.module
  | dispatch _ => none
  | deliver id _ _ => some id
  | teardown id => some id

def Call.tornDown? : Call → Option ModuleId
  | teardown id => some id
  | _ => none

/-- What a call hands to the module, and when. -/
def Call.received? (id : ModuleId) : Call → Option (UInt64 × List UInt8)
  | deliver other time payload => if other = id then some (time, payload) else none
  | _ => none

/-- What a module is told of the events: those that have it among their targets. -/
def Routing.deliveries (routing : Routing) (id : ModuleId) (events : List Event) :
    List (UInt64 × List UInt8) :=
  (events.filter (id ∈ routing.targets ·.destination)).map fun event => (event.time, event.bytes)

/-- A module after deliveries, one after the other. -/
def Behaviour.receive [Behaviour μ] (module : μ) (deliveries : List (UInt64 × List UInt8)) : μ :=
  deliveries.foldl (fun module (time, payload) => Behaviour.deliver time payload module) module

/-- A module after a period: it had its input turn, was told what was delivered to it, and had its output
turn. -/
def Period.pass [Behaviour μ] (period : Period) (deliveries : List (UInt64 × List UInt8)) (module : μ) : μ :=
  (Behaviour.output period (Behaviour.receive (Behaviour.input period module).2 deliveries)).2

theorem join_of_presence {modules : List (Option μ)} {number : Nat}
    (there : (presence modules)[number]? = some true) : ∃ module, modules[number]? = some (some module) := by
  rw [presence, List.getElem?_map, Option.map_eq_some_iff] at there
  obtain ⟨slot, found, some⟩ := there
  obtain ⟨module, rfl⟩ := Option.isSome_iff_exists.mp some
  exact ⟨module, found⟩

theorem presence_set {modules : List (Option μ)} {number : Nat} {module : μ} (changed : μ)
    (found : modules[number]? = some (some module)) :
    presence (modules.set number (some changed)) = presence modules := by
  obtain ⟨bound, -⟩ := List.getElem?_eq_some_iff.mp found
  refine List.ext_getElem? fun index => ?_
  rw [presence, presence, List.getElem?_map, List.getElem?_map]
  by_cases same : number = index
  · subst same
    rw [List.getElem?_set_self bound, found]
    rfl
  · rw [List.getElem?_set_ne same]

/-- Where every target is named once, a target hears of the event once and nobody else does. -/
theorem Event.received_handedTo (event : Event) {targets : List ModuleId} (distinct : targets.Nodup)
    (id : ModuleId) :
    (event.handedTo targets).filterMap (Call.received? id) =
      if id ∈ targets then [(event.time, event.bytes)] else [] := by
  rw [handedTo, List.filterMap_cons_none rfl, List.filterMap_map]
  induction targets with
  | nil => rfl
  | cons first targets ih =>
    obtain ⟨elsewhere, distinct⟩ := List.nodup_cons.mp distinct
    have rest := ih distinct
    rw [List.filterMap_cons, Function.comp_apply, Call.received?]
    by_cases same : first = id
    · subst same
      rw [if_neg elsewhere] at rest
      rw [if_pos rfl, if_pos List.mem_cons_self]
      dsimp only
      rw [rest]
    · rw [if_neg same]
      dsimp only
      rw [rest]
      simp only [List.mem_cons, Ne.symm same, false_or]

theorem Routing.received_eq (routing : Routing) (distinct : ∀ destination, (routing.targets destination).Nodup)
    (id : ModuleId) (events : List Event) :
    (events.flatMap fun event => event.handedTo (routing.targets event.destination)).filterMap
      (Call.received? id) = routing.deliveries id events := by
  induction events with
  | nil => rfl
  | cons event events ih =>
    rw [List.flatMap_cons, List.filterMap_append, ih, event.received_handedTo (distinct event.destination)]
    by_cases target : id ∈ routing.targets event.destination <;> simp [target, deliveries]

theorem Behaviour.receive_append [Behaviour μ] (module : μ) (first next : List (UInt64 × List UInt8)) :
    receive module (first ++ next) = receive (receive module first) next := List.foldl_append

namespace Host

def graph (host : Host μ) : Graph := { live := presence host.modules, targets := host.routing.targets }

/-- What an operation changes in the graph, by what it answers. -/
def change (host : Host μ) : Operation μ → Graph.Change
  | .addModule module => .add (host.addModule module).1 .broadcast
  | .addChild parent module =>
    match (host.addChild parent module).1 with
    | .ok id => .add id (.module parent)
    | .error _ => .keep
  | .connect parent child =>
    match (host.connect parent child).1 with
    | .ok () => if child ∈ host.routing.targets (.module parent) then .keep else .connect parent child
    | .error _ => .keep
  | .disconnect parent child => .disconnect parent child
  | .removeModule id =>
    match (host.removeModule id).1 with
    | .ok _ => .remove id
    | .error _ => .keep
  | _ => .keep

def changes [Behaviour μ] (host : Host μ) : List (Operation μ) → List Graph.Change
  | [] => []
  | operation :: rest => host.change operation :: (host.perform operation).2.changes rest

theorem live_iff {host : Host μ} {id : ModuleId} :
    host.graph.Live id ↔ (host.module? id).isSome = true := by
  rw [Graph.Live, module?, graph]
  constructor
  · intro live
    obtain ⟨module, found⟩ := join_of_presence live
    rw [found]
    rfl
  · intro there
    rw [presence, List.getElem?_map]
    cases found : host.modules[id.number.toNat]? with
    | none =>
      rw [found] at there
      cases there
    | some slot =>
      rw [found] at there
      exact congrArg some there

variable [Behaviour μ]

theorem deliverAll_calls (event : Event) (targets : List ModuleId) (modules : List (Option μ))
    (live : ∀ id ∈ targets, (presence modules)[id.number.toNat]? = some true) :
    (deliverAll event targets modules).1 = targets.map (fun id => .deliver id event.time event.bytes) ∧
      presence (deliverAll event targets modules).2 = presence modules := by
  induction targets generalizing modules with
  | nil => exact ⟨rfl, rfl⟩
  | cons id targets ih =>
    obtain ⟨first, rest⟩ := List.forall_mem_cons.mp live
    obtain ⟨module, found⟩ := join_of_presence first
    have kept := presence_set (Behaviour.deliver event.time event.bytes module) found
    obtain ⟨calls, same⟩ := ih (modules.set id.number.toNat
      (some (Behaviour.deliver event.time event.bytes module))) (by rwa [kept])
    rw [deliverAll, found, Option.join_some]
    dsimp only
    rw [calls, same, kept]
    exact ⟨rfl, rfl⟩

theorem dispatchAll_calls (routing : Routing) (events : List Event) (modules : List (Option μ))
    (live : ∀ destination, ∀ id ∈ routing.targets destination,
      (presence modules)[id.number.toNat]? = some true) :
    (dispatchAll routing events modules).1 =
        events.flatMap (fun event => event.handedTo (routing.targets event.destination)) ∧
      presence (dispatchAll routing events modules).2 = presence modules := by
  induction events generalizing modules with
  | nil => exact ⟨rfl, rfl⟩
  | cons event events ih =>
    obtain ⟨delivered, kept⟩ := deliverAll_calls event _ modules (live event.destination)
    obtain ⟨calls, same⟩ := ih (deliverAll event (routing.targets event.destination) modules).2
      (by rwa [kept])
    rw [dispatchAll]
    dsimp only
    rw [calls, same, kept, delivered]
    exact ⟨rfl, rfl⟩

/-- A module is told what the calls say, and nothing else. -/
theorem deliverAll_receives (event : Event) (targets : List ModuleId) (modules : List (Option μ))
    (id : ModuleId) :
    (deliverAll event targets modules).2[id.number.toNat]?.join =
      modules[id.number.toNat]?.join.map fun module =>
        Behaviour.receive module ((deliverAll event targets modules).1.filterMap (Call.received? id)) := by
  fun_induction deliverAll event targets modules with
  | case1 modules => cases modules[id.number.toNat]?.join <;> rfl
  | case2 _ _ _ _ ih => exact ih
  | case3 other rest modules module found changed calls after delivered ih =>
    rw [delivered] at ih
    dsimp only at ih ⊢
    rw [ih, List.filterMap_cons, List.getElem?_set, Call.received?]
    by_cases same : other = id
    · subst same
      have bound : other.number.toNat < modules.length := by
        refine Nat.lt_of_not_le fun beyond => ?_
        rw [List.getElem?_eq_none beyond] at found
        cases found
      rw [if_pos rfl, if_pos rfl, if_pos bound, found]
      rfl
    · have apart : other.number.toNat ≠ id.number.toNat := fun equal =>
        same (congrArg ModuleId.mk (UInt32.toNat_inj.mp equal))
      rw [if_neg same, if_neg apart]

theorem dispatchAll_receives (routing : Routing) (events : List Event) (modules : List (Option μ))
    (id : ModuleId) :
    (dispatchAll routing events modules).2[id.number.toNat]?.join =
      modules[id.number.toNat]?.join.map fun module =>
        Behaviour.receive module ((dispatchAll routing events modules).1.filterMap (Call.received? id)) := by
  induction events generalizing modules with
  | nil => cases found : modules[id.number.toNat]?.join <;> rw [dispatchAll, found] <;> rfl
  | cons event events ih =>
    have now := deliverAll_receives event (routing.targets event.destination) modules id
    have later := ih (deliverAll event (routing.targets event.destination) modules).2
    rw [dispatchAll]
    dsimp only
    rw [later, now, Option.map_map, List.cons_append, List.filterMap_cons_none rfl,
      List.filterMap_append]
    congr 1
    funext module
    exact (Behaviour.receive_append module _ _).symm

/-! ### Turns -/

theorem runTurn_presence (turn : Turn) (clocks : Clocks) (frame frames : UInt64) (number : Nat)
    (modules : List (Option μ)) (desk : Desk) :
    presence (runTurn turn clocks frame frames number modules desk).2.1 = presence modules := by
  induction modules generalizing number desk with
  | nil => rfl
  | cons module modules ih =>
    cases module with
    | none => exact congrArg (List.cons false) (ih _ _)
    | some module => exact congrArg (List.cons true) (ih _ _)

/-- A turn changes every module by what it answers, and no other way. -/
theorem runTurn_modules (turn : Turn) (clocks : Clocks) (frame frames : UInt64) (number index : Nat)
    (modules : List (Option μ)) (desk : Desk) :
    (runTurn turn clocks frame frames number modules desk).2.1[index]?.join =
      modules[index]?.join.map fun module =>
        (turn.requests ⟨.nth (number + index), frame, frames⟩ module).2 := by
  induction modules generalizing number index desk with
  | nil => rfl
  | cons module modules ih =>
    cases index with
    | zero => cases module <;> rfl
    | succ index =>
      have shifted : number + (index + 1) = number + 1 + index := Nat.add_right_comm number index 1
      rw [shifted]
      cases module <;> exact ih (number + 1) index _

/-- At a turn only modules that are there make requests. -/
theorem runTurn_requests (turn : Turn) (clocks : Clocks) (frame frames : UInt64) (number : Nat)
    (modules : List (Option μ)) (desk : Desk) :
    ∀ call ∈ (runTurn turn clocks frame frames number modules desk).1,
      ∃ period outcome, call = .request turn period outcome ∧
        ∃ index, period.module = .nth (number + index) ∧ (presence modules)[index]? = some true := by
  induction modules generalizing number desk with
  | nil => exact nofun
  | cons module modules ih =>
    have later (desk : Desk) : ∀ call ∈ (runTurn turn clocks frame frames (number + 1) modules desk).1,
        ∃ period outcome, call = .request turn period outcome ∧
          ∃ index, period.module = .nth (number + index) ∧
            (presence (module :: modules))[index]? = some true := by
      intro call member
      obtain ⟨period, outcome, same, index, numbered, there⟩ := ih (number + 1) desk call member
      exact ⟨period, outcome, same, index + 1, by rw [numbered]; congr 1; omega, there⟩
    cases module with
    | none => exact later desk
    | some module =>
      intro call member
      rw [runTurn] at member
      dsimp only at member
      rcases List.mem_append.mp member with now | member
      · obtain ⟨outcome, -, rfl⟩ := List.mem_map.mp now
        exact ⟨_, outcome, rfl, 0, rfl, rfl⟩
      · exact later _ call member

/-! ### One operation -/

section

omit [Behaviour μ]

variable {host : Host μ}

theorem next_eq (host : Host μ) (module : μ) : host.graph.next = (host.insert module).1 := by
  rw [Graph.next, graph, presence, List.length_map]
  rfl

theorem length_live (host : Host μ) : host.graph.live.length = host.modules.length := List.length_map _

/-- A new module is registered at its destination. -/
theorem step_insert (host : Host μ) (module : μ) {destination : Destination} {routing : Routing}
    (addressed : host.graph.Addressed destination)
    (registered : routing.targets = Function.update host.routing.targets destination
      (host.routing.targets destination ++ [(host.insert module).1])) :
    host.graph.Step (.add (host.insert module).1 destination)
      { (host.insert module).2 with routing }.graph := by
  have step : host.graph.Step (.add host.graph.next destination) _ := .added addressed
  rw [next_eq host module] at step
  have after : { (host.insert module).2 with routing }.graph =
      ⟨presence (host.modules ++ [some module]), routing.targets⟩ := rfl
  rw [after, registered, presence, List.map_append]
  exact step

theorem insert_fresh (sound : host.graph.Sound) (module : μ) (few : host.modules.length < UInt32.size)
    (destination : Destination) : (host.insert module).1 ∉ host.routing.targets destination := by
  intro target
  rw [← next_eq host module] at target
  rw [← length_live] at few
  exact Graph.next_not_live few (sound.live destination _ target)

theorem Fed.graph_eq {after : Host μ} (fed : host.Fed after) : after.graph = host.graph := by
  obtain ⟨_, _, _, rfl⟩ := fed
  rfl

theorem Tended.graph_eq {after : Host μ} (tended : host.Tended after) : after.graph = host.graph := by
  obtain ⟨_, _, _, _, _, _, rfl⟩ := tended
  rfl

theorem step_connect (host : Host μ) (parent child : ModuleId) :
    host.graph.Step (host.change (.connect parent child)) (host.connect parent child).2.graph := by
  cases addressed : host.module? parent with
  | none =>
    rw [change, connect, addressed]
    exact .kept
  | some first =>
    cases present : host.module? child with
    | none =>
      rw [change, connect, addressed, present]
      exact .kept
    | some second =>
      rw [change, connect, addressed, present]
      by_cases again : child ∈ host.routing.targets (.module parent)
      · rw [Routing.connect_again again]
        dsimp
        rw [if_pos again]
        exact .kept
      · have after : { host with routing := host.routing.connect parent child }.graph =
            host.graph.withTargets (.module parent) (host.routing.targets (.module parent) ++ [child]) := by
          rw [graph, Routing.targets_connect again]
          rfl
        have addressed : host.graph.Live parent := live_iff.mpr (by rw [addressed]; rfl)
        have present : host.graph.Live child := live_iff.mpr (by rw [present]; rfl)
        dsimp
        rw [if_neg again, after]
        exact .connected addressed present again

theorem step_addChild (sound : host.graph.Sound) (parent : ModuleId) (module : μ)
    (few : host.modules.length + (host.change (.addChild parent module)).added.length ≤ UInt32.size) :
    host.graph.Step (host.change (.addChild parent module)) (host.addChild parent module).2.graph := by
  rw [change] at few ⊢
  cases addressed : host.module? parent with
  | none =>
    rw [addChild, addressed]
    exact .kept
  | some first =>
    have live : host.graph.Live parent := live_iff.mpr (by rw [addressed]; rfl)
    rw [addChild, addressed] at few ⊢
    exact step_insert host module live (Routing.targets_connect (insert_fresh sound module few _))

theorem step_disconnect (host : Host μ) (parent child : ModuleId) :
    host.graph.Step (.disconnect parent child) (host.disconnect parent child).2.graph := by
  have after : (host.disconnect parent child).2.graph =
      ⟨presence host.modules, (host.routing.disconnect parent child).2.targets⟩ := rfl
  rw [after, Routing.targets_disconnect]
  exact .disconnected

theorem step_removeModule (host : Host μ) (id : ModuleId) :
    host.graph.Step (host.change (.removeModule id)) (host.removeModule id).2.2.graph := by
  cases found : host.module? id with
  | none =>
    rw [change, removeModule, found]
    exact .kept
  | some module =>
    have present : host.graph.Live id := live_iff.mpr (by rw [found]; rfl)
    have step : host.graph.Step (.remove id) _ := .removed present
    have after : host.graph.without id =
        ⟨presence (host.modules.set id.number.toNat none), (host.routing.remove id).targets⟩ := by
      rw [Routing.targets_remove, presence, List.map_set]
      rfl
    rw [after] at step
    rw [change, removeModule, found]
    exact step

end

/-- The input turn leaves every target where it is, so what is dispatched is handed to all of them. -/
theorem dispatchTurn_calls (host : Host μ) (sound : host.graph.Sound) (mediaMicros frames : UInt64) :
    (host.dispatchTurn mediaMicros frames).1 =
        (host.due mediaMicros frames).1.flatMap
          (fun event => event.handedTo (host.routing.targets event.destination)) ∧
      presence (host.dispatchTurn mediaMicros frames).2 =
        presence (host.inputTurn mediaMicros frames).2.1 := by
  refine dispatchAll_calls host.routing _ (host.inputTurn mediaMicros frames).2.1 ?_
  rw [inputTurn, runTurn_presence]
  exact sound.live

/-- What a period calls: the modules that make requests, before and after the dispatch, and the targets of
each event in turn. -/
theorem process_calls (host : Host μ) (sound : host.graph.Sound) (mediaMicros frames : UInt64) :
    ∃ inputs outputs,
      (host.process mediaMicros frames).2.1 =
        inputs ++ (Call.dispatched (host.process mediaMicros frames).2.1).flatMap
          (fun event => event.handedTo (host.routing.targets event.destination)) ++ outputs ∧
      (∀ call ∈ inputs ++ outputs, ∃ turn period outcome, call = .request turn period outcome ∧
        ∃ index, period.module = .nth index ∧ host.graph.live[index]? = some true) ∧
      (host.process mediaMicros frames).2.2.graph = host.graph := by
  let inputs := host.inputTurn mediaMicros frames
  let outputs := host.outputTurn mediaMicros frames
  have events : Call.dispatched (host.process mediaMicros frames).2.1 = (host.due mediaMicros frames).1 :=
    process_dispatched host mediaMicros frames
  have ready : presence inputs.2.1 = presence host.modules := runTurn_presence ..
  obtain ⟨calls, served⟩ := dispatchTurn_calls host sound mediaMicros frames
  have done : presence outputs.2.1 = presence host.modules :=
    (runTurn_presence ..).trans (served.trans ready)
  refine ⟨inputs.1, outputs.1, ?_, fun call member => ?_, ?_⟩
  · rw [events, ← calls]
    rfl
  · rcases List.mem_append.mp member with before | behind
    · obtain ⟨period, outcome, same, index, numbered, there⟩ := runTurn_requests _ _ _ _ _ _ _ call before
      rw [Nat.zero_add] at numbered
      exact ⟨_, period, outcome, same, index, numbered, there⟩
    · obtain ⟨period, outcome, same, index, numbered, there⟩ := runTurn_requests _ _ _ _ _ _ _ call behind
      rw [Nat.zero_add] at numbered
      rw [served, ready] at there
      exact ⟨_, period, outcome, same, index, numbered, there⟩
  · show (⟨presence outputs.2.1, _⟩ : Graph) = _
    rw [done]
    rfl

/-- What an operation can do to the graph. -/
theorem perform_step (host : Host μ) (sound : host.graph.Sound) (operation : Operation μ)
    (few : host.modules.length + (host.change operation).added.length ≤ UInt32.size) :
    host.graph.Step (host.change operation) (host.perform operation).2.graph := by
  have kept {after : Graph} (same : after = host.graph) : host.graph.Step .keep after := by
    rw [same]
    exact .kept
  cases operation with
  | addModule module =>
    exact step_insert host module trivial (Routing.targets_addTopLevel (insert_fresh sound module few .broadcast))
  | addChild parent module => exact step_addChild sound parent module few
  | connect parent child => exact step_connect host parent child
  | disconnect parent child => exact step_disconnect host parent child
  | removeModule id => exact step_removeModule host id
  | process mediaMicros frames =>
    obtain ⟨-, -, -, -, same⟩ := process_calls host sound mediaMicros frames
    exact kept same
  | send inlet packet => exact kept (send_fed host inlet packet).graph_eq
  | sendFrames inlet decoder => exact kept (sendFrames_fed host inlet decoder).graph_eq
  | upkeep now reading => exact kept (upkeepByHand_tended host now reading).graph_eq
  | forceResync now => exact kept (forceResync_tended host now).graph_eq
  | start => exact kept (start_tended host).graph_eq
  | attend now reading => exact kept (attend_tended host now reading).graph_eq
  | stop now reading => exact kept (stop_tended host now reading).graph_eq
  | _ => exact .kept

/-! ### Calls -/

theorem process_recipients (host : Host μ) (sound : host.graph.Sound)
    (few : host.modules.length ≤ UInt32.size) (mediaMicros frames : UInt64) :
    ∀ call ∈ (host.process mediaMicros frames).2.1,
      call.tornDown? = none ∧ ∀ id, call.recipient? = some id → host.graph.Live id := by
  obtain ⟨inputs, outputs, calls, requests, -⟩ := process_calls host sound mediaMicros frames
  have turns : ∀ call ∈ inputs ++ outputs,
      call.tornDown? = none ∧ ∀ id, call.recipient? = some id → host.graph.Live id := by
    intro call member
    obtain ⟨turn, period, outcome, rfl, index, numbered, there⟩ := requests call member
    refine ⟨rfl, fun id same => ?_⟩
    cases same
    obtain ⟨bound, -⟩ := List.getElem?_eq_some_iff.mp there
    rw [length_live] at bound
    rw [numbered, Graph.Live, ModuleId.toNat_nth (Nat.lt_of_lt_of_le bound few)]
    exact there
  rw [calls]
  intro call member
  rcases List.mem_append.mp member with member | behind
  · rcases List.mem_append.mp member with before | member
    · exact turns call (List.mem_append_left _ before)
    · obtain ⟨event, -, member⟩ := List.mem_flatMap.mp member
      rcases List.mem_cons.mp member with rfl | member
      · refine ⟨rfl, fun id same => ?_⟩
        cases same
      · obtain ⟨target, routed, rfl⟩ := List.mem_map.mp member
        refine ⟨rfl, fun id same => ?_⟩
        cases same
        exact sound.live _ target routed
  · exact turns call (List.mem_append_right _ behind)

omit [Behaviour μ] in
theorem removeModule_calls (host : Host μ) (id : ModuleId) :
    (host.removeModule id).2.1 = (host.change (.removeModule id)).removed.map Call.teardown ∧
      ∀ other ∈ (host.change (.removeModule id)).removed, host.graph.Live other := by
  cases found : host.module? id with
  | none =>
    rw [change, removeModule, found]
    exact ⟨rfl, List.forall_mem_nil _⟩
  | some module =>
    rw [change, removeModule, found]
    refine ⟨rfl, fun other same => ?_⟩
    rw [List.mem_singleton.mp same, live_iff, found]
    rfl

/-- The modules that are called are there, and those that are torn down are those that are removed. -/
theorem perform_recipients (host : Host μ) (sound : host.graph.Sound) (operation : Operation μ)
    (few : host.modules.length ≤ UInt32.size) :
    (host.perform operation).1.filterMap Call.tornDown? = (host.change operation).removed ∧
      ∀ call ∈ (host.perform operation).1, ∀ id, call.recipient? = some id → host.graph.Live id := by
  cases operation with
  | process mediaMicros frames =>
    have called := process_recipients host sound few mediaMicros frames
    exact ⟨List.filterMap_eq_nil_iff.mpr fun call member => (called call member).1,
      fun call member => (called call member).2⟩
  | removeModule id =>
    obtain ⟨calls, live⟩ := removeModule_calls host id
    rw [perform, calls]
    constructor
    · rw [List.filterMap_map]
      exact List.filterMap_some
    · intro call member other same
      obtain ⟨removed, present, rfl⟩ := List.mem_map.mp member
      cases same
      exact live other present
  | addChild parent module =>
    refine ⟨?_, List.forall_mem_nil _⟩
    rw [change]
    split <;> rfl
  | connect parent child =>
    refine ⟨?_, List.forall_mem_nil _⟩
    rw [change]
    split
    · split <;> rfl
    · rfl
  | _ => exact ⟨rfl, List.forall_mem_nil _⟩

omit [Behaviour μ] in
theorem close_calls (host : Host μ) :
    host.close.1 = (Graph.present host.graph.live).map Call.teardown := by
  rw [close, Graph.present, graph, presence, List.zipIdx_map, List.filter_map, List.map_map, List.map_map]
  rfl

/-! ### Runs -/

/-- The graph is sound, and there are numbers for all modules that the operations add. -/
structure Admits (host : Host μ) (operations : List (Operation μ)) : Prop where
  sound : host.graph.Sound
  few : host.modules.length + ((host.changes operations).flatMap Graph.Change.added).length ≤ UInt32.size

variable {host : Host μ} {operation : Operation μ} {operations before after : List (Operation μ)}

theorem Admits.next (admits : host.Admits (operation :: operations)) :
    host.graph.Step (host.change operation) (host.perform operation).2.graph ∧
      (host.perform operation).2.Admits operations := by
  obtain ⟨sound, few⟩ := admits
  rw [changes, List.flatMap_cons, List.length_append] at few
  have step := perform_step host sound operation (by omega)
  have length := step.length
  rw [length_live, length_live] at length
  refine ⟨step, step.sound sound ?_, by omega⟩
  rw [length_live]
  omega

theorem Admits.front (admits : host.Admits (before ++ after)) :
    host.graph.Run (host.changes before) (host.run before).2.graph ∧ (host.run before).2.Admits after := by
  induction before generalizing host with
  | nil => exact ⟨.stay, admits⟩
  | cons operation before ih =>
    obtain ⟨step, onwards⟩ := admits.next
    obtain ⟨rest, reached⟩ := ih onwards
    exact ⟨.step step rest, reached⟩

theorem Admits.run (admits : host.Admits operations) :
    host.graph.Run (host.changes operations) (host.run operations).2.graph ∧
      (host.run operations).2.Admits [] := by
  rw [← List.append_nil operations] at admits
  exact admits.front

theorem Admits.short (admits : host.Admits operations) : host.modules.length ≤ UInt32.size :=
  Nat.le_trans (Nat.le_add_right _ _) admits.few

theorem Admits.tornDown (admits : host.Admits operations) :
    (host.run operations).1.filterMap Call.tornDown? =
      (host.changes operations).flatMap Graph.Change.removed := by
  induction operations generalizing host with
  | nil => rfl
  | cons operation operations ih =>
    rw [Host.run, changes, List.flatMap_cons]
    dsimp only
    rw [List.filterMap_append, ih admits.next.2,
      (perform_recipients host admits.sound operation admits.short).1]

/-- A module that was removed is called no more, nor is it when the host is closed. -/
theorem Admits.silent (admits : host.Admits operations) {id : ModuleId}
    (gone : host.graph.live[id.number.toNat]? = some false) :
    ∀ call ∈ (host.run operations).1 ++ (host.run operations).2.close.1, call.recipient? ≠ some id := by
  have absent (host : Host μ) (gone : host.graph.live[id.number.toNat]? = some false) :
      ¬host.graph.Live id := by
    intro live
    rw [Graph.Live, gone] at live
    cases live
  induction operations generalizing host with
  | nil =>
    intro call member same
    rw [Host.run, List.nil_append, close_calls] at member
    obtain ⟨other, present, rfl⟩ := List.mem_map.mp member
    cases same
    refine absent host gone (Graph.live_of_mem_present present ?_)
    rw [length_live]
    exact admits.short
  | cons operation operations ih =>
    obtain ⟨step, onwards⟩ := admits.next
    intro call member same
    rw [Host.run, List.append_assoc] at member
    rcases List.mem_append.mp member with now | later
    · exact absent host gone
        ((perform_recipients host admits.sound operation admits.short).2 call now id same)
    · exact ih onwards (step.gone gone) call later same

/-! ### Targets -/

/-- The targets are modules that are there, each of them once, in the order in which they were last
registered; and what is addressed to a module has targets only as long as that module is there. -/
structure Routed (host : Host μ) (registered : Destination → List ModuleId) : Prop where
  distinct : ∀ destination, (host.routing.targets destination).Nodup
  present : ∀ destination, ∀ id ∈ host.routing.targets destination, (host.module? id).isSome = true
  parents : ∀ parent, host.routing.targets (.module parent) ≠ [] → (host.module? parent).isSome = true
  ordered : ∀ destination, (host.routing.targets destination).Sublist (registered destination).dedup

/-- A module is a target where it was added or connected, behind those that are, until it is disconnected or
removed, and nothing else changes what is a target. -/
structure Registers (host : Host μ) : Prop where
  addModule : ∀ module,
    (host.addModule module).2.routing.targets = Function.update host.routing.targets .broadcast
      (host.routing.targets .broadcast ++ [(host.addModule module).1])
  addChild : ∀ parent module, (host.module? parent).isSome = true →
    (host.addChild parent module).1 = .ok (host.insert module).1 ∧
      (host.addChild parent module).2.routing.targets = Function.update host.routing.targets (.module parent)
        (host.routing.targets (.module parent) ++ [(host.insert module).1])
  connect : ∀ parent child, (host.module? parent).isSome = true → (host.module? child).isSome = true →
    (host.connect parent child).1 = .ok () ∧
      (host.connect parent child).2.routing.targets = Function.update host.routing.targets (.module parent)
        (if child ∈ host.routing.targets (.module parent) then host.routing.targets (.module parent)
          else host.routing.targets (.module parent) ++ [child])
  disconnect : ∀ parent child,
    (host.disconnect parent child).1 = decide (child ∈ host.routing.targets (.module parent)) ∧
      (host.disconnect parent child).2.routing.targets = Function.update host.routing.targets (.module parent)
        ((host.routing.targets (.module parent)).filter (· ≠ child))
  removeModule : ∀ id, (host.module? id).isSome = true →
    (host.removeModule id).2.2.routing.targets = fun destination =>
      if destination = .module id then [] else (host.routing.targets destination).filter (· ≠ id)
  otherwise : ∀ operation, host.change operation = .keep →
    (host.perform operation).2.routing.targets = host.routing.targets

/-- Between the turns of its modules a period hands every event that is due to each of its targets, in
their order, at the time at which it is dispatched, and to no other module. A module changes at its two
turns, and between them by what is delivered to it. -/
def HandsOver (host : Host μ) (mediaMicros frames : UInt64) : Prop :=
  let due := (host.collected mediaMicros frames).queue.toList.takeWhile (·.isDue host.frame frames)
  let events := due.map (·.clamped host.frame)
  (∃ inputs outputs,
    (host.process mediaMicros frames).2.1 =
      inputs ++ events.flatMap (fun event => event.handedTo (host.routing.targets event.destination)) ++
        outputs ∧
    ∀ call ∈ inputs ++ outputs, ∃ turn period outcome, call = .request turn period outcome) ∧
  ∀ id, (host.process mediaMicros frames).2.2.module? id = (host.module? id).map
    (Period.pass ⟨id, host.frame, frames⟩ (host.routing.deliveries id events))

/-- What fails changes nothing. -/
structure Steady (host : Host μ) : Prop where
  addChild : ∀ parent module error, (host.addChild parent module).1 = .error error →
    (host.addChild parent module).2 = host
  connect : ∀ parent child error, (host.connect parent child).1 = .error error →
    (host.connect parent child).2 = host
  removeModule : ∀ id error, (host.removeModule id).1 = .error error →
    (host.removeModule id).2 = ([], host)

/-- A module is torn down and what is addressed to it is withdrawn, nothing else; whatever is done later,
nothing is left of it and it is not called again. -/
structure Removes (host : Host μ) (id : ModuleId) (later : List (Operation μ)) : Prop where
  answer : (host.removeModule id).1 =
    .ok (host.queue.toList.filter fun event => event.destination = .module id).length
  calls : (host.removeModule id).2.1 = [.teardown id]
  queue : (host.removeModule id).2.2.queue.toList =
    host.queue.toList.filter fun event => event.destination ≠ .module id
  gone : ((host.removeModule id).2.2.run later).2.module? id = none
  silent :
    let final := (host.removeModule id).2.2.run later
    ∀ call ∈ final.1 ++ final.2.close.1, call.recipient? ≠ some id

/-- A module after a period, by the events that were dispatched in it. -/
theorem process_modules (host : Host μ) (sound : host.graph.Sound) (mediaMicros frames : UInt64)
    (id : ModuleId) :
    (host.process mediaMicros frames).2.2.module? id = (host.module? id).map
      (Period.pass ⟨id, host.frame, frames⟩
        (host.routing.deliveries id (Call.dispatched (host.process mediaMicros frames).2.1))) := by
  have events : Call.dispatched (host.process mediaMicros frames).2.1 = (host.due mediaMicros frames).1 :=
    process_dispatched host mediaMicros frames
  have numbered : ModuleId.nth (0 + id.number.toNat) = id := by
    rw [Nat.zero_add, ModuleId.nth_toNat]
  have before : (host.inputTurn mediaMicros frames).2.1[id.number.toNat]?.join = _ :=
    runTurn_modules .input (host.periodClocks mediaMicros) host.frame frames 0 _ host.modules host.desk
  have told : (host.dispatchTurn mediaMicros frames).2[id.number.toNat]?.join = _ :=
    dispatchAll_receives host.routing _ (host.inputTurn mediaMicros frames).2.1 id
  have behind : (host.outputTurn mediaMicros frames).2.1[id.number.toNat]?.join = _ :=
    runTurn_modules .output (host.periodClocks mediaMicros) host.frame frames 0 _ _ _
  have heard : (host.dispatchTurn mediaMicros frames).1.filterMap (Call.received? id) = _ :=
    (congrArg _ (dispatchTurn_calls host sound mediaMicros frames).1).trans
      (host.routing.received_eq sound.distinct id _)
  show (host.outputTurn mediaMicros frames).2.1[id.number.toNat]?.join = _
  rw [← dispatchTurn, heard] at told
  rw [behind, told, before, numbered, events, Option.map_map, Option.map_map]
  rfl

theorem hands_over (sound : host.graph.Sound) (queue : host.queue.Sound) (mediaMicros frames : UInt64) :
    host.HandsOver mediaMicros frames := by
  obtain ⟨inputs, outputs, calls, requests, -⟩ := process_calls host sound mediaMicros frames
  have becomes := (host.collected_proceeds mediaMicros frames).queue.becomes
  obtain ⟨events, -, -⟩ := (becomes.sound queue).toList_drain host.frame frames
  have modules := process_modules host sound mediaMicros frames
  rw [process_dispatched, events] at calls
  simp only [process_dispatched, events] at modules
  refine ⟨⟨inputs, outputs, calls, fun call member => ?_⟩, modules⟩
  obtain ⟨turn, period, outcome, same, -⟩ := requests call member
  exact ⟨turn, period, outcome, same⟩

theorem registers (host : Host μ) (sound : host.graph.Sound) (few : host.modules.length < UInt32.size) :
    host.Registers where
  addModule module := Routing.targets_addTopLevel (insert_fresh sound module few .broadcast)
  addChild parent module there := by
    obtain ⟨first, found⟩ := Option.isSome_iff_exists.mp there
    rw [Host.addChild, found]
    exact ⟨rfl, Routing.targets_connect (insert_fresh sound module few (.module parent))⟩
  connect parent child there present := by
    obtain ⟨first, found⟩ := Option.isSome_iff_exists.mp there
    obtain ⟨second, beside⟩ := Option.isSome_iff_exists.mp present
    rw [Host.connect, found, beside]
    refine ⟨rfl, ?_⟩
    show (host.routing.connect parent child).targets = _
    split
    · rename_i again
      rw [Routing.connect_again again, Function.update_eq_self]
    · rename_i new
      exact Routing.targets_connect new
  disconnect parent child := ⟨decide_eq_decide.mpr Routing.mem_children.symm, Routing.targets_disconnect⟩
  removeModule id there := by
    obtain ⟨module, found⟩ := Option.isSome_iff_exists.mp there
    rw [Host.removeModule, found]
    exact Routing.targets_remove
  otherwise operation keeps := by
    have step := perform_step host sound operation (by rw [keeps]; exact Nat.le_of_lt few)
    rw [keeps] at step
    exact congrArg Graph.targets step.of_keep

omit [Behaviour μ] in
theorem steady (host : Host μ) : host.Steady where
  addChild parent module error failed := by
    rw [Host.addChild] at failed ⊢
    split at failed
    · rename_i absent
      rw [if_pos absent]
    · cases failed
  connect parent child error failed := by
    rw [Host.connect] at failed ⊢
    split at failed
    · rename_i absent
      rw [if_pos absent]
    · rename_i addressed
      split at failed
      · rename_i absent
        rw [if_neg addressed, if_pos absent]
      · cases failed
  removeModule id error failed := by
    rw [Host.removeModule] at failed ⊢
    split at failed
    · rename_i absent
      rw [if_pos absent]
    · cases failed

omit [Behaviour μ] in
theorem removeModule_there {id : ModuleId} {module : μ} (found : host.module? id = some module) :
    let withdrawn := host.queue.removeWhere fun event => event.destination == .module id
    (host.removeModule id).1 = .ok withdrawn.1.length ∧ (host.removeModule id).2.1 = [.teardown id] ∧
      (host.removeModule id).2.2.queue = withdrawn.2 ∧
      (host.removeModule id).2.2.modules = host.modules.set id.number.toNat none := by
  rw [removeModule, found]
  exact ⟨rfl, rfl, rfl, rfl⟩

theorem removes {id : ModuleId} (admits : host.Admits (.removeModule id :: operations))
    (queue : host.queue.Sound) (there : (host.module? id).isSome = true) : host.Removes id operations := by
  obtain ⟨bound, -⟩ := List.getElem?_eq_some_iff.mp (live_iff.mpr there)
  obtain ⟨module, found⟩ := Option.isSome_iff_exists.mp there
  obtain ⟨answer, calls, rest, cleared⟩ := removeModule_there found
  obtain ⟨withdrawn, left⟩ := queue.toList_removeWhere fun event => event.destination == .module id
  have onwards : (host.removeModule id).2.2.Admits operations := admits.next.2
  have gone : (host.removeModule id).2.2.graph.live[id.number.toNat]? = some false := by
    rw [graph, cleared, presence, List.map_set]
    exact List.getElem?_set_self bound
  refine ⟨?_, calls, ?_, ?_, onwards.silent gone⟩
  · rw [answer, withdrawn]
    rfl
  · rw [rest, left]
    congr 1
    funext event
    by_cases same : event.destination = .module id <;> simp [same]
  · refine Option.not_isSome_iff_eq_none.mp fun there => ?_
    have live : Graph.Live _ id := live_iff.mpr there
    rw [Graph.Live, onwards.run.1.gone gone] at live
    cases live

/-- Over any run that adds less than 2³² modules the targets are modules that are there and were added or
connected where they are, each event reaches each of its targets once and nobody else, a module that is
removed takes with it what is addressed to it and hears no more, and every module is torn down once. -/
theorem run_targets (settings : Settings) (sampleRate : Float) (period : UInt64) (now : Nat)
    (reading : ClockPair) (operations : List (Operation μ)) :
    let start : Host μ := initial settings sampleRate period now reading
    let added := (start.changes operations).flatMap Graph.Change.added
    let final := start.run operations
    added.length < UInt32.size →
      added.Nodup ∧ ((final.1 ++ final.2.close.1).filterMap Call.tornDown?).Perm added ∧
        final.1.filterMap Call.tornDown? = (start.changes operations).flatMap Graph.Change.removed ∧
        ∀ before after, operations = before ++ after →
          let host := (start.run before).2
          host.Routed (fun destination => (start.changes before).flatMap (·.registered destination)) ∧
            host.Registers ∧ host.Steady ∧ (∀ mediaMicros frames, host.HandsOver mediaMicros frames) ∧
            ∀ id later, after = .removeModule id :: later → (host.module? id).isSome = true →
              host.Removes id later := by
  intro start added final few
  have none : start.graph = ⟨[], fun _ => []⟩ := by
    refine congrArg (Graph.mk []) ?_
    funext destination
    cases destination <;> rfl
  have empty : start.graph.Sound := by
    rw [none]
    exact ⟨fun _ => .nil, fun _ => nofun, fun _ some => absurd rfl some⟩
  have unused : start.modules.length = 0 := rfl
  have admits : start.Admits operations := ⟨empty, by rw [unused, Nat.zero_add]; exact Nat.le_of_lt few⟩
  obtain ⟨run, -⟩ := admits.run
  refine ⟨run.added_nodup ?_, ?_, admits.tornDown, ?_⟩
  · rw [length_live, unused, Nat.zero_add]
    exact few
  · have balance := run.balance
    rw [none] at balance
    rw [List.filterMap_append, admits.tornDown, close_calls, List.filterMap_map]
    have all : (Graph.present final.2.graph.live).filterMap (Call.tornDown? ∘ Call.teardown) = _ :=
      List.filterMap_some
    rw [all]
    exact balance
  · intro before after whole host
    rw [whole] at admits
    obtain ⟨reached, onwards⟩ := admits.front
    have queue : host.queue.Sound :=
      (run_sound (initial_sound settings sampleRate period now reading) before).queue
    have numbers : host.modules.length < UInt32.size := by
      have reaches : final.2 = (host.run after).2 := by
        show (start.run operations).2 = _
        rw [whole, run_append]
      have whole : final.2.graph.live.length = start.graph.live.length + added.length := run.added_eq.1
      have rest := onwards.run.1.added_eq.1
      rw [← reaches, length_live host] at rest
      rw [length_live start] at whole
      omega
    refine ⟨?_, registers host onwards.sound numbers, steady host, hands_over onwards.sound queue, ?_⟩
    · have short : host.graph.live.length ≤ UInt32.size := by
        rw [length_live]
        exact Nat.le_of_lt numbers
      refine ⟨onwards.sound.distinct, fun destination id target => live_iff.mp (onwards.sound.live _ id target),
        fun parent some => live_iff.mp (onwards.sound.addressed (.module parent) some), fun destination => ?_⟩
      have unregistered : (start.graph.targets destination).Sublist (List.dedup []) := by
        rw [none]
        exact .refl []
      exact reached.ordered empty short unregistered
    · intro id later first there
      rw [first] at onwards
      exact removes onwards queue there

/-- A module that is a child of its own, and another one that is removed while something is addressed to it. -/
theorem run_targets_own_child :
    let start : Host Sequencer :=
      initial { queueCapacity := 4, poolPreallocate := 4 } 48000 256 0 { mediaMicros := 0, wall := ⟨0⟩ }
    let before := [.addModule { name := "one" }, .addChild ⟨0⟩ { name := "two" }, .connect ⟨0⟩ ⟨0⟩,
      .connect ⟨0⟩ ⟨1⟩, .connect ⟨1⟩ ⟨0⟩, .schedule (.module ⟨0⟩) 9 [1], .process 0 16,
      .schedule (.module ⟨1⟩) 20 [2]]
    let later := [.schedule (.module ⟨0⟩) 30 [3], .process 333 16]
    let operations := before ++ .removeModule ⟨1⟩ :: later
    let host := (start.run before).2
    let final := start.run operations
    ((start.changes operations).flatMap Graph.Change.added).length < UInt32.size ∧
      host.routing.targets (.module ⟨0⟩) = [⟨1⟩, ⟨0⟩] ∧ (host.module? ⟨1⟩).isSome = true ∧
      host.Removes ⟨1⟩ later ∧ (host.removeModule ⟨1⟩).1 = .ok 1 ∧
      (final.1 ++ final.2.close.1).filterMap Call.tornDown? = [⟨1⟩, ⟨0⟩] := by
  intro start before later operations host final
  have few : ((start.changes operations).flatMap Graph.Change.added).length < UInt32.size := by
    decide +kernel
  have there : (host.module? ⟨1⟩).isSome = true := by decide +kernel
  obtain ⟨-, -, -, holds⟩ := run_targets _ 48000 256 0 _ operations few
  obtain ⟨-, -, -, -, removes⟩ := holds before _ rfl
  have removed := removes ⟨1⟩ later rfl there
  refine ⟨few, by decide +kernel, there, removed, by decide +kernel, by decide +kernel⟩

end Host

end OscHost
