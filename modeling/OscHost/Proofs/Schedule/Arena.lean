import OscHost.Proofs.Schedule.Links

/-!
# The slots of a queue

Two chains run through the slots of a queue: the pending ones in order of dispatch, linked both ways,
and the vacant ones, linked forwards only. `Arena` says so. `Arena.unlink` and `Arena.schedule` say
which chains the operations make of these; all other slots keep what they hold.
-/

namespace OscHost

namespace Queue

/-! ### The arena -/

/-- Following `next` from `start` visits exactly `chain`. -/
def Leads (q : Queue) : Option Nat → List Nat → Prop
  | start, [] => start = none
  | start, index :: rest => start = some index ∧ q.Leads (q.slot index).next rest

/-- The slots of `chain` are pending in this order, those of `vacant` are free, and there are no
others. -/
structure Arena (q : Queue) (chain vacant : List Nat) : Prop where
  linked : (stops chain).IsChain q.Adjacent
  free : q.Leads q.free vacant
  cover : (chain ++ vacant).Perm (List.range q.slots.size)
  count : q.size = chain.length
  occupied : ∀ i ∈ chain, ∃ event, (q.slot i).event = some event ∧ (q.slot i).time = event.time
  empty : ∀ i ∈ vacant, (q.slot i).event = none
  ordered : chain.Pairwise fun i j => (q.slot i).time ≤ (q.slot j).time

theorem leads_congr {q r : Queue} {start : Option Nat} {chain : List Nat} (leads : q.Leads start chain)
    (same : ∀ i ∈ chain, (r.slot i).next = (q.slot i).next) : r.Leads start chain := by
  induction chain generalizing start with
  | nil => exact leads
  | cons index rest ih =>
    obtain ⟨first, leads⟩ := leads
    refine ⟨first, ih ?_ fun i member => same i (List.mem_cons_of_mem _ member)⟩
    rw [same index List.mem_cons_self]
    exact leads

theorem ordered_congr {q r : Queue} {chain : List Nat}
    (ordered : chain.Pairwise fun i j => (q.slot i).time ≤ (q.slot j).time)
    (same : ∀ i ∈ chain, (r.slot i).held = (q.slot i).held) :
    chain.Pairwise fun i j => (r.slot i).time ≤ (r.slot j).time := by
  refine ordered.imp_of_mem fun {i j} memberI memberJ le => ?_
  rw [(Slot.held_eq_iff.mp (same i memberI)).2.1, (Slot.held_eq_iff.mp (same j memberJ)).2.1]
  exact le

theorem chain_congr {q r : Queue} {line : List (Option Nat)} (chained : line.IsChain q.Adjacent)
    (same : ∀ z ∈ line, r.following z = q.following z ∧ r.preceding z = q.preceding z) :
    line.IsChain r.Adjacent := by
  apply chained.imp_of_mem_imp
  intro x y memberX memberY ⟨forward, backward⟩
  exact ⟨(same x memberX).1.trans forward, (same y memberY).2.trans backward⟩

namespace Arena

variable {q : Queue} {chain front back vacant : List Nat} {index : Nat}

theorem nodup (h : q.Arena chain vacant) : (chain ++ vacant).Nodup :=
  h.cover.nodup_iff.mpr List.nodup_range

theorem inside (h : q.Arena chain vacant) {i : Nat} (member : i ∈ chain ++ vacant) : i < q.slots.size :=
  List.mem_range.mp (h.cover.mem_iff.mp member)

theorem mem_of_event (h : q.Arena chain vacant) {i : Nat} {event : Event}
    (holds : (q.slot i).event = some event) : i ∈ chain := by
  have inside : i < q.slots.size := by
    by_contra outside
    simp [slot, outside] at holds
  rcases List.mem_append.mp (h.cover.mem_iff.mpr (List.mem_range.mpr inside)) with pending | free
  · exact pending
  · rw [h.empty i free] at holds
    cases holds

/-- The links at the place where a chain is cut. -/
theorem meeting (h : q.Arena (front ++ back) vacant) : q.Adjacent front.getLast? back.head? :=
  (linked_append.mp h.linked).2.1

theorem prev_eq (h : q.Arena (front ++ index :: back) vacant) : (q.slot index).prev = front.getLast? :=
  h.meeting.2

theorem next_eq (h : q.Arena (front ++ index :: back) vacant) : (q.slot index).next = back.head? := by
  rw [List.append_cons] at h
  simpa [following] using h.meeting.1

theorem head_eq (h : q.Arena chain vacant) : q.head = chain.head? := by
  rw [← List.nil_append chain] at h
  exact h.meeting.1

theorem tail_eq (h : q.Arena chain vacant) : q.tail = chain.getLast? := by
  rw [← List.append_nil chain] at h
  exact h.meeting.2

end Arena

/-! ### Taking a slot out -/

theorem slot_unlink_other (q : Queue) {index i : Nat} (other : i ≠ index) :
    (q.unlink index).2.slot i = (q.link (q.slot index).prev (q.slot index).next).slot i :=
  slot_modifySlot_other _ _ other

theorem slot_unlink_same (q : Queue) {index : Nat} (inside : index < q.slots.size) :
    ((q.unlink index).2.slot index).event = none ∧
      ((q.unlink index).2.slot index).generation = (q.slot index).generation + 1 ∧
      ((q.unlink index).2.slot index).next = q.free := by
  have modified : (q.unlink index).2.slot index = _ :=
    slot_modifySlot_same (q.link (q.slot index).prev (q.slot index).next) _ (by simpa using inside)
  rw [modified]
  exact ⟨rfl, congrArg (·.2.2 + 1) (held_link q _ _ index), free_link q _ _⟩

theorem held_unlink (q : Queue) {index i : Nat} (other : i ≠ index) :
    ((q.unlink index).2.slot i).held = (q.slot i).held := by
  rw [slot_unlink_other q other, held_link]

@[simp] theorem size_unlink (q : Queue) (index : Nat) :
    (q.unlink index).2.slots.size = q.slots.size := by
  simp [unlink]

namespace Arena

variable {q : Queue} {chain front back vacant : List Nat} {index : Nat}

theorem unlink (h : q.Arena (front ++ index :: back) vacant) :
    (q.unlink index).2.Arena (front ++ back) (index :: vacant) := by
  have inside : index < q.slots.size := h.inside (by simp)
  obtain ⟨empty, -, next⟩ := slot_unlink_same q inside
  have distinct := h.nodup
  have apart : ∀ i ∈ front ++ back, i ≠ index := by
    intro i member
    grind
  have apartVacant : ∀ i ∈ vacant, i ≠ index := by
    intro i member
    grind
  have held : ∀ i ≠ index, ((q.unlink index).2.slot i).held = (q.slot i).held :=
    fun i other => held_unlink q other
  have joined : (stops (front ++ back)).IsChain (q.link front.getLast? back.head?).Adjacent := by
    refine linked_link ?_ (fun i member => h.inside ?_) (linked_append.mp h.linked).1 ?_
    · grind
    · grind
    · rw [List.append_cons] at h
      exact (linked_append.mp h.linked).2.2
  rw [← h.prev_eq, ← h.next_eq] at joined
  constructor
  case linked =>
    refine chain_congr joined fun z member => ?_
    have other : z ≠ some index := by
      simp only [stops] at member
      grind
    cases z with
    | none => exact ⟨rfl, rfl⟩
    | some i =>
      have same : (q.unlink index).2.slot i = _ := slot_unlink_other q (by simpa using other)
      exact ⟨congrArg Slot.next same, congrArg Slot.prev same⟩
  case free =>
    refine ⟨rfl, ?_⟩
    rw [next]
    refine leads_congr h.free fun i member => ?_
    rw [slot_unlink_other q (apartVacant i member)]
    have behind : (q.link (q.slot index).prev (q.slot index).next).following (some i) = _ :=
      following_link q _ (fun j last => h.inside (by grind [h.prev_eq])) (some i)
    rw [if_neg (by grind [h.prev_eq])] at behind
    exact behind
  case cover =>
    rw [size_unlink]
    refine List.Perm.trans ?_ h.cover
    grind
  case count =>
    have before := h.count
    have removed : (q.unlink index).2.size = (q.link (q.slot index).prev (q.slot index).next).size - 1 := rfl
    rw [removed, count_link]
    simp only [List.length_append, List.length_cons] at before ⊢
    omega
  case occupied =>
    intro i member
    obtain ⟨event, holds, time⟩ := h.occupied i (by grind)
    obtain ⟨sameEvent, sameTime, -⟩ := Slot.held_eq_iff.mp (held i (apart i member))
    exact ⟨event, sameEvent.trans holds, sameTime.trans time⟩
  case empty =>
    intro i member
    rcases List.mem_cons.mp member with rfl | member
    · exact empty
    · exact (Slot.held_eq_iff.mp (held i (apartVacant i member))).1.trans (h.empty i member)
  case ordered =>
    refine ordered_congr (h.ordered.sublist ?_) fun i member => held i (apart i member)
    exact (List.sublist_cons_self index back).append_left front

end Arena

/-! ### Putting an event in -/

@[simp] theorem size_occupy (q : Queue) (index : Nat) (event : Event) :
    (q.occupy index event).slots.size = q.slots.size := by
  simp [occupy]

theorem slot_occupy (q : Queue) (index i : Nat) (event : Event) :
    (q.occupy index event).slot i =
      if index = i ∧ i < q.slots.size then { q.slot i with event := some event, time := event.time }
      else q.slot i :=
  slot_modifySlot { q with free := (q.slot index).next, size := q.size + 1 } index i _

theorem adjacent_occupy {q : Queue} {index : Nat} {event : Event} {x y : Option Nat} :
    (q.occupy index event).Adjacent x y ↔ q.Adjacent x y := by
  have links : ∀ i, ((q.occupy index event).slot i).next = (q.slot i).next ∧
      ((q.occupy index event).slot i).prev = (q.slot i).prev := by
    intro i
    rw [slot_occupy]
    split <;> exact ⟨rfl, rfl⟩
  have forward : (q.occupy index event).following x = q.following x := by
    cases x with
    | none => rfl
    | some i => exact (links i).1
  have backward : (q.occupy index event).preceding y = q.preceding y := by
    cases y with
    | none => rfl
    | some i => exact (links i).2
  rw [Adjacent, Adjacent, forward, backward]

namespace Arena

variable {q : Queue} {chain front back vacant : List Nat} {index : Nat}

/-- The search backwards stops in front of the slots that are due later. -/
theorem lastDue_front (h : q.Arena (front ++ back) vacant) (time : UInt64) {steps : Nat}
    (enough : front.length ≤ steps) :
    ∃ kept passed, front = kept ++ passed ∧ q.lastDue time steps front.getLast? = kept.getLast? ∧
      (∀ i ∈ kept.getLast?, (q.slot i).time ≤ time) ∧ ∀ i ∈ passed, time < (q.slot i).time := by
  induction steps generalizing front back with
  | zero =>
    have none : front = [] := List.length_eq_zero_iff.mp (by omega)
    subst none
    exact ⟨[], [], rfl, rfl, by simp, by simp⟩
  | succ steps ih =>
    rcases List.eq_nil_or_concat front with rfl | ⟨rest, index, rfl⟩
    · exact ⟨[], [], rfl, rfl, by simp, by simp⟩
    · rw [List.concat_eq_append] at h enough ⊢
      rw [List.getLast?_concat, lastDue]
      split
      · rename_i later
        rw [List.append_assoc, List.singleton_append] at h
        rw [h.prev_eq]
        obtain ⟨kept, passed, rfl, found, due, late⟩ := ih h (by simp at enough; omega)
        refine ⟨kept, passed ++ [index], by simp, found, due, fun i member => ?_⟩
        rcases List.mem_append.mp member with member | member
        · exact late i member
        · rw [List.mem_singleton.mp member]
          exact later
      · rename_i due
        refine ⟨rest ++ [index], [], by simp, by simp, fun i last => ?_, by simp⟩
        rw [List.getLast?_concat] at last
        cases last
        exact UInt64.not_lt.mp due

/-- The search finds the place of an event that is due at `time`. -/
theorem lastDue_place (h : q.Arena chain vacant) (time : UInt64) :
    ∃ front back, chain = front ++ back ∧ q.lastDue time q.size q.tail = front.getLast? ∧
      (∀ i ∈ front, (q.slot i).time ≤ time) ∧ ∀ i ∈ back, time < (q.slot i).time := by
  have whole := h
  rw [← List.append_nil chain] at whole
  obtain ⟨front, back, rfl, found, due, late⟩ :=
    whole.lastDue_front time (Nat.le_of_eq h.count.symm)
  refine ⟨front, back, rfl, ?_, fun i member => ?_, late⟩
  · rw [h.tail_eq]
    exact found
  · -- All before the last of them are due no later than it is.
    obtain ⟨rest, last, rfl⟩ := List.eq_nil_or_concat front |>.resolve_left (List.ne_nil_of_mem member)
    have bound := due last (by simp)
    have order := h.ordered
    rw [List.concat_eq_append, List.append_assoc] at order
    rcases List.mem_append.mp (List.concat_eq_append ▸ member) with before | same
    · exact UInt64.le_trans ((List.pairwise_append.mp order).2.2 i before last (by simp)) bound
    · rw [List.mem_singleton.mp same]
      exact bound

end Arena

@[simp] theorem size_insert (q : Queue) (index : Nat) (event : Event) (x y : Option Nat) :
    (q.insert index event x y).slots.size = q.slots.size := by
  simp [insert]

theorem held_insert_other (q : Queue) {index i : Nat} (event : Event) (x y : Option Nat)
    (other : i ≠ index) : ((q.insert index event x y).slot i).held = (q.slot i).held := by
  rw [insert, held_link, held_link, slot_occupy, if_neg fun both => other both.1.symm]

theorem held_insert_same (q : Queue) {index : Nat} (event : Event) (x y : Option Nat)
    (inside : index < q.slots.size) :
    ((q.insert index event x y).slot index).held =
      Slot.held { event := some event, time := event.time, generation := (q.slot index).generation } := by
  rw [insert, held_link, held_link, slot_occupy, if_pos ⟨rfl, inside⟩]
  rfl

theorem next_insert_other (q : Queue) {index i : Nat} (event : Event) {x : Option Nat} (y : Option Nat)
    (inside : index < q.slots.size) (insideX : ∀ j ∈ x, j < q.slots.size) (other : i ≠ index)
    (apart : some i ≠ x) : ((q.insert index event x y).slot i).next = (q.slot i).next := by
  have first := following_link (q.occupy index event) (some index)
    (fun j last => by simpa using insideX j last) (some i)
  have second : (q.insert index event x y).following (some i) = _ :=
    following_link ((q.occupy index event).link x (some index)) y
      (fun j same => by simpa using Option.mem_some.mp same ▸ inside) (some i)
  rw [if_neg (by simpa using other), first, if_neg apart] at second
  rw [following, following, slot_occupy, if_neg fun both => other both.1.symm] at second
  exact second

namespace Arena

variable {q : Queue} {chain front back vacant : List Nat} {index : Nat}

theorem insert (h : q.Arena (front ++ back) (index :: vacant)) {event : Event}
    (due : ∀ i ∈ front, (q.slot i).time ≤ event.time) (late : ∀ i ∈ back, event.time < (q.slot i).time) :
    (q.insert index event front.getLast? back.head?).Arena (front ++ index :: back) vacant := by
  have distinct := h.nodup
  have inside : ∀ i ∈ front ++ index :: back, i < q.slots.size :=
    fun i member => h.inside (by grind)
  have held : ∀ i ≠ index, ((q.insert index event front.getLast? back.head?).slot i).held =
      (q.slot i).held := fun i other => held_insert_other q event _ _ other
  obtain ⟨sameEvent, sameTime, -⟩ := Slot.held_eq_iff.mp
    (held_insert_same q event front.getLast? back.head? (inside index (by simp)))
  constructor
  case linked =>
    obtain ⟨left, -, right⟩ := linked_append.mp h.linked
    have apart : (front ++ index :: back).Nodup := by grind
    have filled : ∀ i ∈ front ++ index :: back, i < (q.occupy index event).slots.size := by
      simpa using inside
    have parts := linked_extend apart filled (left.imp fun _ _ => adjacent_occupy.mpr)
      (right.imp fun _ _ => adjacent_occupy.mpr)
    rw [List.append_cons] at apart filled ⊢
    have joined := linked_link apart (by simpa using filled) parts.1 parts.2
    rw [List.getLast?_concat] at joined
    exact joined
  case free =>
    have start : (q.insert index event front.getLast? back.head?).free = (q.slot index).next := by
      rw [Queue.insert, free_link, free_link]
      rfl
    rw [start]
    refine leads_congr h.free.2 fun i member => ?_
    exact next_insert_other q event _ (inside index (by simp)) (fun j last => inside j (by grind))
      (by grind) (by grind)
  case cover =>
    rw [size_insert]
    refine List.Perm.trans ?_ h.cover
    grind
  case count =>
    have before := h.count
    have added : (q.occupy index event).size = q.size + 1 := rfl
    rw [Queue.insert, count_link, count_link, added, before]
    grind
  case occupied =>
    intro i member
    by_cases same : i = index
    · rw [same]
      exact ⟨event, sameEvent, sameTime⟩
    · obtain ⟨event, holds, time⟩ := h.occupied i (by grind)
      obtain ⟨sameEvent, sameTime, -⟩ := Slot.held_eq_iff.mp (held i same)
      exact ⟨event, sameEvent.trans holds, sameTime.trans time⟩
  case empty =>
    intro i member
    have other : i ≠ index := by grind
    exact (Slot.held_eq_iff.mp (held i other)).1.trans (h.empty i (by grind))
  case ordered =>
    have order := ordered_congr h.ordered (r := q.insert index event front.getLast? back.head?)
      fun i member => held i (by grind)
    rw [List.pairwise_append] at order ⊢
    refine ⟨order.1, List.pairwise_cons.mpr ⟨fun j later => ?_, order.2.1⟩, fun i earlier j member => ?_⟩
    · rw [sameTime, (Slot.held_eq_iff.mp (held j (by grind))).2.1]
      exact UInt64.le_of_lt (late j later)
    · rcases List.mem_cons.mp member with rfl | member
      · rw [sameTime, (Slot.held_eq_iff.mp (held i (by grind))).2.1]
        exact due i earlier
      · exact order.2.2 i earlier j member

theorem schedule_full (h : q.Arena chain []) (event : Event) : q.schedule event = none := by
  have full : q.free = none := h.free
  simp only [Queue.schedule, full]

/-- With a slot to spare, an event takes the first free one and its place in the order. -/
theorem schedule (h : q.Arena chain (index :: vacant)) (event : Event) :
    ∃ front back x y, chain = front ++ back ∧
      q.schedule event = some (⟨index, (q.slot index).generation⟩, q.insert index event x y) ∧
      (q.insert index event x y).Arena (front ++ index :: back) vacant ∧
      (∀ i ∈ front, (q.slot i).time ≤ event.time) ∧ ∀ i ∈ back, event.time < (q.slot i).time := by
  obtain ⟨front, back, rfl, found, due, late⟩ := h.lastDue_place event.time
  refine ⟨front, back, front.getLast?, back.head?, rfl, ?_, h.insert due late, due, late⟩
  have meets := h.meeting.1
  rw [Queue.schedule, h.free.1]
  dsimp only
  rw [found]
  cases last : front.getLast? <;> rw [last] at meets <;> rw [← meets] <;> rfl

end Arena

theorem slot_ofCapacity {capacity index : Nat} (inside : index < min capacity (UInt32.size - 2)) :
    (ofCapacity capacity).slot index =
      { next := if index + 1 < min capacity (UInt32.size - 2) then some (index + 1) else none } := by
  have present : index < (ofCapacity capacity).slots.size := by
    rw [ofCapacity, Array.size_map, Array.size_range]
    exact inside
  rw [slot, Array.getD, dif_pos present]
  simp only [ofCapacity, Array.getInternal_eq_getElem, Array.getElem_map, Array.getElem_range]

theorem leads_ofCapacity (capacity start count : Nat) (whole : start + count = min capacity (UInt32.size - 2)) :
    (ofCapacity capacity).Leads (if start < min capacity (UInt32.size - 2) then some start else none)
      (List.range' start count) := by
  induction count generalizing start with
  | zero => exact if_neg (by omega)
  | succ count ih =>
    have inside : start < min capacity (UInt32.size - 2) := by omega
    refine ⟨if_pos inside, ?_⟩
    have next : ((ofCapacity capacity).slot start).next =
        if start + 1 < min capacity (UInt32.size - 2) then some (start + 1) else none := by
      rw [slot_ofCapacity inside]
    rw [next]
    exact ih (start + 1) (by omega)

theorem arena_ofCapacity (capacity : Nat) :
    (ofCapacity capacity).Arena [] (List.range (min capacity (UInt32.size - 2))) where
  linked := by simp [stops, Adjacent, following, preceding, ofCapacity]
  free := by
    rw [List.range_eq_range']
    exact leads_ofCapacity capacity 0 _ (by omega)
  cover := by simp [ofCapacity]
  count := rfl
  occupied := by simp
  empty := by
    intro i member
    rw [slot_ofCapacity (List.mem_range.mp member)]
  ordered := List.Pairwise.nil

end Queue

end OscHost
