import OscHost.Host.Routing
import Mathlib.Data.List.Dedup
import Mathlib.Data.List.Perm.Basic
import Mathlib.Logic.Function.Basic

/-!
# Graphs of modules

What routing is about: which modules are there, and which of them receive what is addressed where. One
operation of a host changes little in it (`Graph.Step`), and what holds over a sequence of changes is
derived from that alone. Targets are modules that are there, without repetitions, in the order in which
they were registered; every module is numbered once, and is removed at most once.
-/

namespace OscHost

/-- The module that is added after so many others. -/
def ModuleId.nth (number : Nat) : ModuleId := ⟨UInt32.ofNat number⟩

theorem ModuleId.toNat_nth {number : Nat} (few : number < UInt32.size) :
    (ModuleId.nth number).number.toNat = number :=
  UInt32.toNat_ofNat_of_lt few

theorem ModuleId.nth_toNat (id : ModuleId) : ModuleId.nth id.number.toNat = id :=
  congrArg ModuleId.mk UInt32.ofNat_toNat

structure Graph where
  /-- By number, whether the module is there. A removed one leaves a gap. -/
  live : List Bool
  targets : Destination → List ModuleId

namespace Graph

def Live (g : Graph) (id : ModuleId) : Prop := g.live[id.number.toNat]? = some true

/-- A destination at which a module can be registered. -/
def Addressed (g : Graph) : Destination → Prop
  | .broadcast => True
  | .module id => g.Live id

def next (g : Graph) : ModuleId := .nth g.live.length

/-- The modules that are there, by number. -/
def present (live : List Bool) : List ModuleId :=
  (live.zipIdx.filter fun (live, _) => live).map fun (_, number) => .nth number

def withTargets (g : Graph) (destination : Destination) (ids : List ModuleId) : Graph :=
  { g with targets := Function.update g.targets destination ids }

def without (g : Graph) (id : ModuleId) : Graph :=
  { live := g.live.set id.number.toNat false
    targets := fun destination =>
      if destination = .module id then [] else (g.targets destination).filter (· ≠ id) }

inductive Change where
  | keep
  | add (id : ModuleId) (destination : Destination)
  | connect (parent child : ModuleId)
  | disconnect (parent child : ModuleId)
  | remove (id : ModuleId)
  deriving DecidableEq, Repr

namespace Change

def added : Change → List ModuleId
  | .add id _ => [id]
  | _ => []

def removed : Change → List ModuleId
  | .remove id => [id]
  | _ => []

/-- The modules that a change registers at the destination. -/
def registered (destination : Destination) : Change → List ModuleId
  | .add id place => if place = destination then [id] else []
  | .connect parent child => if .module parent = destination then [child] else []
  | _ => []

end Change

inductive Step (g : Graph) : Change → Graph → Prop where
  | kept : g.Step .keep g
  | added {destination : Destination} (addressed : g.Addressed destination) :
      g.Step (.add g.next destination)
        ({ g with live := g.live ++ [true] }.withTargets destination
          (g.targets destination ++ [g.next]))
  | connected {parent child : ModuleId} (addressed : g.Live parent) (present : g.Live child)
      (new : child ∉ g.targets (.module parent)) :
      g.Step (.connect parent child)
        (g.withTargets (.module parent) (g.targets (.module parent) ++ [child]))
  | disconnected {parent child : ModuleId} :
      g.Step (.disconnect parent child)
        (g.withTargets (.module parent) ((g.targets (.module parent)).filter (· ≠ child)))
  | removed {id : ModuleId} (present : g.Live id) : g.Step (.remove id) (g.without id)

inductive Run : Graph → List Change → Graph → Prop where
  | stay {g : Graph} : Run g [] g
  | step {g h k : Graph} {change : Change} {changes : List Change} (first : g.Step change h)
      (rest : Run h changes k) : Run g (change :: changes) k

variable {g h : Graph} {change : Change} {changes : List Change} {id : ModuleId}

theorem Step.of_keep (step : g.Step .keep h) : h = g := by
  cases step
  rfl

/-! ### Numbers -/

theorem Step.length (step : g.Step change h) :
    h.live.length = g.live.length + change.added.length := by
  cases step with
  | added addressed => exact List.length_append
  | removed present => exact List.length_set
  | _ => rfl

theorem Step.added_eq (step : g.Step change h) :
    change.added = (List.range' g.live.length change.added.length).map .nth := by
  cases step <;> rfl

/-- Modules are numbered in the order in which they are added. -/
theorem Run.added_eq (run : g.Run changes h) :
    let added := changes.flatMap Change.added
    h.live.length = g.live.length + added.length ∧
      added = (List.range' g.live.length added.length).map .nth := by
  induction run with
  | stay => exact ⟨rfl, rfl⟩
  | @step g h k change changes first rest ih =>
    intro added
    have split : added = change.added ++ changes.flatMap Change.added := List.flatMap_cons
    obtain ⟨length, further⟩ := ih
    rw [first.length] at length further
    constructor
    · rw [length, split, List.length_append, Nat.add_assoc]
    · rw [split, List.length_append, ← List.range'_append_1, List.map_append, ← first.added_eq,
        ← further]

theorem Run.added_nodup (run : g.Run changes h)
    (few : g.live.length + (changes.flatMap Change.added).length < UInt32.size) :
    (changes.flatMap Change.added).Nodup := by
  rw [run.added_eq.2]
  refine List.Nodup.map_on (fun x first y second same => ?_) List.nodup_range'
  have first := (List.mem_range'_1.mp first).2
  have second := (List.mem_range'_1.mp second).2
  rw [← ModuleId.toNat_nth (Nat.lt_trans first few), same, ModuleId.toNat_nth (Nat.lt_trans second few)]

/-! ### Targets -/

/-- Targets are modules that are there, without repetitions, and what is addressed to a module has targets
only as long as that module is there. -/
structure Sound (g : Graph) : Prop where
  distinct : ∀ destination, (g.targets destination).Nodup
  live : ∀ destination, ∀ id ∈ g.targets destination, g.Live id
  addressed : ∀ destination, g.targets destination ≠ [] → g.Addressed destination

theorem next_not_live (few : g.live.length < UInt32.size) : ¬g.Live g.next := by
  intro live
  rw [Live, next, ModuleId.toNat_nth few, List.getElem?_length] at live
  cases live

theorem length_lt_of_grown {live : List Bool} {limit : Nat} (few : (live ++ [true]).length ≤ limit) :
    live.length < limit := by
  rwa [List.length_append] at few

theorem Live.append (live : g.Live id) (more : List Bool) :
    ({ g with live := g.live ++ more } : Graph).Live id := by
  obtain ⟨bound, -⟩ := List.getElem?_eq_some_iff.mp live
  rw [Live, List.getElem?_append_left bound]
  exact live

theorem Live.without {other : ModuleId} (live : g.Live id) (different : id ≠ other) :
    (g.without other).Live id := by
  have apart : other.number.toNat ≠ id.number.toNat := fun same =>
    different (congrArg ModuleId.mk (UInt32.toNat_inj.mp same)).symm
  rw [Live, Graph.without, List.getElem?_set_ne apart]
  exact live

/-- Targets at one destination may be replaced by others that are sound there. -/
theorem Sound.withTargets (sound : g.Sound) {destination : Destination} {ids : List ModuleId}
    (distinct : ids.Nodup) (live : ∀ id ∈ ids, g.Live id)
    (addressed : ids ≠ [] → g.Addressed destination) :
    (g.withTargets destination ids).Sound where
  distinct := (Function.forall_update_iff g.targets fun _ ids => ids.Nodup).mpr
    ⟨distinct, fun other _ => sound.distinct other⟩
  live := (Function.forall_update_iff g.targets fun _ ids => ∀ id ∈ ids, g.Live id).mpr
    ⟨live, fun other _ => sound.live other⟩
  addressed := (Function.forall_update_iff g.targets fun other ids => ids ≠ [] → g.Addressed other).mpr
    ⟨addressed, fun other _ => sound.addressed other⟩

theorem Sound.register (sound : g.Sound) {destination : Destination} (addressed : g.Addressed destination)
    (live : g.Live id) (new : id ∉ g.targets destination) :
    (g.withTargets destination (g.targets destination ++ [id])).Sound := by
  refine sound.withTargets ?_ ?_ fun _ => addressed
  · rw [← List.concat_eq_append]
    exact (sound.distinct destination).concat new
  · exact List.forall_mem_append.mpr ⟨sound.live destination, List.forall_mem_singleton.mpr live⟩

theorem Sound.grow (sound : g.Sound) : ({ g with live := g.live ++ [true] } : Graph).Sound where
  distinct := sound.distinct
  live destination id target := (sound.live destination id target).append [true]
  addressed destination some := by
    have addressed := sound.addressed destination some
    cases destination with
    | broadcast => trivial
    | module id => exact Live.append addressed [true]

theorem Sound.without (sound : g.Sound) (id : ModuleId) : (g.without id).Sound where
  distinct destination := by
    rw [Graph.without]
    dsimp only
    split
    · exact .nil
    · exact (sound.distinct destination).filter _
  live destination other target := by
    rw [Graph.without] at target
    dsimp only at target
    split at target
    · cases target
    · obtain ⟨target, different⟩ := List.mem_filter.mp target
      exact (sound.live destination other target).without (of_decide_eq_true different)
  addressed destination some := by
    rw [Graph.without] at some
    dsimp only at some
    split at some
    · exact absurd rfl some
    · rename_i different
      have before : g.targets destination ≠ [] := fun none => some (by rw [none, List.filter_nil])
      have addressed := sound.addressed destination before
      cases destination with
      | broadcast => trivial
      | module parent => exact Live.without addressed fun same => different (congrArg _ same)

theorem Step.sound (step : g.Step change h) (sound : g.Sound) (few : h.live.length ≤ UInt32.size) :
    h.Sound := by
  cases step with
  | kept => exact sound
  | @added destination addressed =>
    have few : g.live.length < UInt32.size := length_lt_of_grown few
    refine sound.grow.register ?_ ?_ fun target => next_not_live few (sound.live destination _ target)
    · cases destination with
      | broadcast => trivial
      | module id => exact Live.append addressed [true]
    · rw [Live, next, ModuleId.toNat_nth few]
      exact List.getElem?_concat_length
  | connected addressed present new => exact sound.register addressed present new
  | @disconnected parent child =>
    refine sound.withTargets ((sound.distinct _).filter _) (fun id target => ?_) fun some => ?_
    · exact sound.live _ id (List.mem_filter.mp target).1
    · exact sound.addressed _ fun none => some (by rw [none, List.filter_nil])
  | @removed id present => exact sound.without id

theorem Run.sound (run : g.Run changes h) (sound : g.Sound) (few : h.live.length ≤ UInt32.size) :
    h.Sound := by
  induction run with
  | stay => exact sound
  | step first rest ih =>
    have shorter := rest.added_eq.1
    exact ih (first.sound sound (by omega)) few

/-! ### Registration -/

/-- What is not among the targets and is registered comes last, whether or not it was registered before. -/
theorem sublist_dedup_concat {α : Type} [DecidableEq α] {targets registered : List α} {new : α}
    (order : targets.Sublist registered.dedup) (absent : new ∉ targets) :
    (targets ++ [new]).Sublist (registered ++ [new]).dedup := by
  induction registered generalizing targets with
  | nil =>
    cases order
    exact .refl _
  | cons first rest ih =>
    rw [List.cons_append]
    by_cases again : first ∈ rest
    · rw [List.dedup_cons_of_mem again] at order
      rw [List.dedup_cons_of_mem (List.mem_append_left _ again)]
      exact ih order absent
    · rw [List.dedup_cons_of_notMem again] at order
      by_cases same : first = new
      · subst same
        rw [List.dedup_cons_of_mem (List.mem_append_right _ List.mem_cons_self)]
        cases order with
        | cons _ order => exact ih order absent
        | cons_cons _ order => exact absurd List.mem_cons_self absent
      · have fresh : first ∉ rest ++ [new] := by simp [again, same]
        rw [List.dedup_cons_of_notMem fresh]
        cases order with
        | cons _ order => exact (ih order absent).cons first
        | cons_cons _ order =>
          exact (ih order fun member => absent (List.mem_cons_of_mem _ member)).cons_cons first

theorem sublist_register {registered : List ModuleId} {destination place : Destination}
    (order : (g.targets destination).Sublist registered.dedup) (new : id ∉ g.targets place) :
    ((g.withTargets place (g.targets place ++ [id])).targets destination).Sublist
      (registered ++ if place = destination then [id] else []).dedup := by
  show (Function.update g.targets place (g.targets place ++ [id]) destination).Sublist _
  by_cases same : place = destination
  · subst same
    rw [Function.update_self, if_pos rfl]
    exact sublist_dedup_concat order new
  · rw [Function.update_of_ne (Ne.symm same), if_neg same, List.append_nil]
    exact order

/-- The targets at a destination stay in the order in which they were last registered there. -/
theorem Step.ordered (step : g.Step change h) (sound : g.Sound) (few : h.live.length ≤ UInt32.size)
    {destination : Destination} {registered : List ModuleId}
    (order : (g.targets destination).Sublist registered.dedup) :
    (h.targets destination).Sublist (registered ++ change.registered destination).dedup := by
  have kept (fewer : (h.targets destination).Sublist (g.targets destination)) :
      (h.targets destination).Sublist (registered ++ []).dedup := by
    rw [List.append_nil]
    exact fewer.trans order
  cases step with
  | kept => exact kept (.refl _)
  | @added place addressed =>
    have few : g.live.length < UInt32.size := length_lt_of_grown few
    exact sublist_register order fun target => next_not_live few (sound.live place _ target)
  | connected addressed present new => exact sublist_register order new
  | @disconnected parent child =>
    refine kept ?_
    show (Function.update g.targets _ _ destination).Sublist _
    rw [Function.update_apply]
    split
    · rename_i same
      rw [same]
      exact List.filter_sublist
    · exact .refl _
  | removed present =>
    refine kept ?_
    rw [Graph.without]
    dsimp only
    split
    · exact List.nil_sublist _
    · exact List.filter_sublist

theorem Run.ordered (run : g.Run changes h) (sound : g.Sound) (few : h.live.length ≤ UInt32.size)
    {destination : Destination} {registered : List ModuleId}
    (order : (g.targets destination).Sublist registered.dedup) :
    (h.targets destination).Sublist
      (registered ++ changes.flatMap (·.registered destination)).dedup := by
  induction run generalizing registered with
  | stay =>
    rw [List.flatMap_nil, List.append_nil]
    exact order
  | step first rest ih =>
    have shorter := rest.added_eq.1
    rw [List.flatMap_cons, ← List.append_assoc]
    exact ih (first.sound sound (by omega)) few (first.ordered sound (by omega) order)

/-! ### Removal -/

theorem present_split (front back : List Bool) :
    ∃ before after, ∀ live, present (front ++ live :: back) =
      before ++ (if live then [.nth front.length] else []) ++ after := by
  refine ⟨present front, ((back.zipIdx (front.length + 1)).filter fun (live, _) => live).map
    fun (_, number) => .nth number, fun live => ?_⟩
  cases live <;> simp [present, List.zipIdx_append]

theorem present_concat (live : List Bool) :
    present (live ++ [true]) = present live ++ [.nth live.length] := by
  simp [present, List.zipIdx_append]

theorem live_of_mem_present (member : id ∈ present g.live) (few : g.live.length ≤ UInt32.size) :
    g.Live id := by
  obtain ⟨⟨live, number⟩, found, rfl⟩ := List.mem_map.mp member
  obtain ⟨found, there⟩ := List.mem_filter.mp found
  have found := List.mk_mem_zipIdx_iff_getElem?.mp found
  obtain ⟨bound, -⟩ := List.getElem?_eq_some_iff.mp found
  rw [Live, ModuleId.toNat_nth (Nat.lt_of_lt_of_le bound few), found]
  exact congrArg some there

theorem present_without (live : g.Live id) : (id :: present (g.without id).live).Perm (present g.live) := by
  obtain ⟨bound, there⟩ := List.getElem?_eq_some_iff.mp live
  have split : g.live = g.live.take id.number.toNat ++ true :: g.live.drop (id.number.toNat + 1) := by
    rw [← there, List.getElem_cons_drop, List.take_append_drop]
  have cut : (g.live.take id.number.toNat).length = id.number.toNat :=
    List.length_take_of_le (Nat.le_of_lt bound)
  obtain ⟨before, after, numbered⟩ :=
    present_split (g.live.take id.number.toNat) (g.live.drop (id.number.toNat + 1))
  have whole := numbered true
  have rest := numbered false
  rw [← split, cut, ModuleId.nth_toNat, if_pos rfl] at whole
  rw [Graph.without, whole]
  dsimp only
  rw [List.set_eq_take_append_cons_drop, if_pos bound, rest, if_neg Bool.false_ne_true,
    List.append_nil, List.append_assoc]
  exact List.perm_middle.symm

/-- Every module that was there or is added is either removed or still there. -/
theorem Step.balance (step : g.Step change h) :
    (change.removed ++ present h.live).Perm (present g.live ++ change.added) := by
  cases step with
  | added addressed => exact List.Perm.of_eq (present_concat g.live)
  | removed live =>
    exact (present_without live).trans (List.Perm.of_eq (List.append_nil _).symm)
  | _ => exact List.Perm.of_eq (List.append_nil _).symm

theorem Run.balance (run : g.Run changes h) :
    (changes.flatMap Change.removed ++ present h.live).Perm
      (present g.live ++ changes.flatMap Change.added) := by
  induction run with
  | stay => exact List.Perm.of_eq (List.append_nil _).symm
  | @step g h k change changes first rest ih =>
    have later := ih.append_left change.removed
    have now := first.balance.append_right (changes.flatMap Change.added)
    rw [← List.append_assoc, ← List.append_assoc] at later
    rw [List.append_assoc (present g.live)] at now
    rw [List.flatMap_cons, List.flatMap_cons]
    exact later.trans now

theorem Step.gone (step : g.Step change h) {number : Nat} (gone : g.live[number]? = some false) :
    h.live[number]? = some false := by
  obtain ⟨bound, there⟩ := List.getElem?_eq_some_iff.mp gone
  cases step with
  | added addressed =>
    show (g.live ++ [true])[number]? = some false
    rw [List.getElem?_append_left bound]
    exact gone
  | removed present =>
    show (g.live.set _ false)[number]? = some false
    rw [List.getElem?_set]
    split
    · rename_i same
      rw [same, if_pos bound]
    · exact gone
  | _ => exact gone

/-- A module that was removed does not come back. -/
theorem Run.gone (run : g.Run changes h) {number : Nat} (gone : g.live[number]? = some false) :
    h.live[number]? = some false := by
  induction run with
  | stay => exact gone
  | step first rest ih => exact ih (first.gone gone)

end Graph

end OscHost
