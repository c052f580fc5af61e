import OscHost.Proofs.Schedule.Agenda

/-!
# Handles

A slot counts in thirty-two bits how often it was vacated, and a handle carries the count. What the handle of
an event that has left still reaches depends on how often its slot was filled since: nothing for as long as
that is less than 2³² times (`cancel_issued`), and at 2³² times the event that is in the slot then
(`cancel_reissued`).
-/

namespace OscHost

/-- How often the slot was filled, in thirty-two bits. -/
def Slot.uses (slot : Slot) : UInt32 := slot.generation + if slot.event.isSome then 1 else 0

theorem Slot.uses_congr {s t : Slot} (same : s.held = t.held) : s.uses = t.uses := by
  obtain ⟨event, -, generation⟩ := held_eq_iff.mp same
  rw [uses, uses, event, generation]

namespace Queue

def after (q : Queue) (requests : List Request) : Queue :=
  requests.foldl (fun q request => (q.serve request).2) q

/-- The event that was scheduled, if it was. -/
def issue (number : Nat) : Request → Answer → List Entry
  | .schedule event, .scheduled handle => [⟨handle, number, event⟩]
  | _, _ => []

/-- The events that requests schedule, in order, with the handles that are returned for them. -/
def issues (q : Queue) (number : Nat) : List Request → List Entry
  | [] => []
  | request :: rest =>
    let issued := issue number request (q.serve request).1
    issued ++ (q.serve request).2.issues (number + issued.length) rest

/-- How many of the events were put into a slot. -/
def filled (index : Nat) (issued : List Entry) : Nat := issued.countP (·.handle.index == index)

variable {q r : Queue} {capacity : Nat} {entries issued : List Entry} {entry : Entry}

/-! ### How often a slot is filled -/

theorem uses_unlink {index : Nat} (occupied : (q.slot index).event.isSome) (i : Nat) :
    ((q.unlink index).2.slot i).uses = (q.slot i).uses := by
  by_cases same : i = index
  · subst same
    have inside : i < q.slots.size := by
      by_contra outside
      simp [slot, outside] at occupied
    obtain ⟨empty, generation, -⟩ := slot_unlink_same q inside
    rw [Slot.uses, Slot.uses, empty, generation, if_pos occupied]
    exact UInt32.add_zero _
  · exact Slot.uses_congr (held_unlink q same)

theorem uses_cancel {handle : Handle} {event : Event} (cancelled : q.cancel handle = some (event, r)) (i : Nat) :
    (r.slot i).uses = (q.slot i).uses := by
  unfold cancel at cancelled
  dsimp only at cancelled
  split at cancelled
  · split at cancelled
    · rename_i taken
      cases cancelled
      have held : (q.slot handle.index).event = some event := congrArg (·.1) taken
      have occupied : (q.slot handle.index).event.isSome := by rw [held, Option.isSome_some]
      have kept := uses_unlink occupied i
      rw [taken] at kept
      exact kept
    · cases cancelled
  · cases cancelled

theorem uses_removeFrom (p : Event → Bool) (steps : Nat) (cursor : Option Nat) (q : Queue) (i : Nat) :
    ((removeFrom p steps cursor q).2.slot i).uses = (q.slot i).uses := by
  fun_induction removeFrom p steps cursor q with
  | case1 steps index q slot matching removed next unlinked rest last taken ih =>
    have occupied : (q.slot index).event.isSome := by
      cases held : (q.slot index).event with
      | some event => rfl
      | none => simp [slot, held] at matching
    have kept := uses_unlink occupied i
    rw [taken] at ih
    rw [unlinked] at kept
    exact ih.trans kept
  | case2 steps index q slot other ih => exact ih
  | case3 => rfl

theorem Keeps.first (keeps : q.Keeps capacity entries) {index : Nat} (head : q.head = some index) :
    ∃ entry rest, entries = [] ++ entry :: rest ∧ entry.handle.index = index := by
  rw [keeps.head_eq] at head
  cases entries with
  | nil => cases head
  | cons entry rest => exact ⟨entry, rest, rfl, Option.some.inj head⟩

theorem Keeps.uses_drainTo (keeps : q.Keeps capacity entries) (current limit : UInt64) (steps i : Nat) :
    ((Queue.drainTo current limit steps q).2.slot i).uses = (q.slot i).uses := by
  fun_induction Queue.drainTo current limit steps q generalizing entries with
  | case1 => rfl
  | case2 => rfl
  | case3 => rfl
  | case4 steps q index head time due next =>
    rename_i unlinked
    obtain ⟨entry, rest, rfl, rfl⟩ := keeps.first head
    have event := keeps.unlink_event
    rw [unlinked] at event
    cases event
  | case5 steps q index head time due event next unlinked rest last taken late =>
    rename_i ih
    obtain ⟨entry, others, rfl, rfl⟩ := keeps.first head
    have onwards := keeps.unlink
    have occupied : (q.slot entry.handle.index).event.isSome := by rw [keeps.event_eq (by simp), Option.isSome_some]
    have kept := uses_unlink occupied i
    rw [unlinked] at onwards kept
    have left := ih onwards
    rw [taken] at left
    exact left.trans kept

/-- An event gets a free slot, and the handle counts how often that was filled before. -/
theorem Keeps.uses_schedule (keeps : q.Keeps capacity entries) {event : Event} {handle : Handle}
    (stored : q.schedule event = some (handle, r)) :
    handle.generation = (q.slot handle.index).uses ∧
      (∀ entry ∈ entries, entry.handle.index ≠ handle.index) ∧
      ∀ i, (r.slot i).uses = (q.slot i).uses + if handle.index = i then 1 else 0 := by
  obtain ⟨vacant, arena⟩ := keeps.arena
  cases vacant with
  | nil => cases (arena.schedule_full event).symm.trans stored
  | cons index vacant =>
    obtain ⟨front, back, x, y, -, inserted, -⟩ := arena.schedule event
    cases inserted.symm.trans stored
    have distinct := arena.nodup
    have empty := arena.empty index List.mem_cons_self
    have inside := arena.inside (show index ∈ _ by simp)
    have before : (q.slot index).uses = (q.slot index).generation := by
      rw [Slot.uses, empty]
      exact UInt32.add_zero _
    refine ⟨before.symm, ?_, ?_⟩
    · intro entry member
      grind
    · intro i
      by_cases same : index = i
      · subst same
        rw [Slot.uses_congr (held_insert_same q event x y inside), before, if_pos rfl]
        rfl
      · rw [Slot.uses_congr (held_insert_other q event x y (Ne.symm same)), if_neg same]
        exact (UInt32.add_zero _).symm

/-! ### Tallies -/

@[simp] theorem filled_append (index : Nat) (front back : List Entry) :
    filled index (front ++ back) = filled index front + filled index back := List.countP_append

@[simp] theorem filled_cons (index : Nat) (entry : Entry) (rest : List Entry) :
    filled index (entry :: rest) = filled index rest + if entry.handle.index = index then 1 else 0 := by
  simp [filled, List.countP_cons]

/-- What is known of the events that were scheduled so far. -/
structure Tally (q : Queue) (entries issued : List Entry) : Prop where
  uses : ∀ index, (q.slot index).uses = UInt32.ofNat (filled index issued)
  generation : ∀ before entry later, issued = before ++ entry :: later →
    entry.handle.generation = UInt32.ofNat (filled entry.handle.index before)
  /-- A slot that is pending was not filled since. -/
  latest : ∀ entry ∈ entries, ∃ before later,
    issued = before ++ entry :: later ∧ filled entry.handle.index later = 0

namespace Tally

theorem withdraw (tally : q.Tally entries issued) {fewer : List Entry} (kept : fewer ⊆ entries)
    (uses : ∀ i, (r.slot i).uses = (q.slot i).uses) : r.Tally fewer issued := by
  refine ⟨?_, tally.generation, ?_⟩
  · intro index
    rw [uses, tally.uses]
  · intro entry member
    exact tally.latest entry (kept member)

theorem add {front back : List Entry} (tally : q.Tally (front ++ back) issued)
    (counted : entry.handle.generation = (q.slot entry.handle.index).uses)
    (apart : ∀ other ∈ front ++ back, other.handle.index ≠ entry.handle.index)
    (uses : ∀ i, (r.slot i).uses = (q.slot i).uses + if entry.handle.index = i then 1 else 0) :
    r.Tally (front ++ entry :: back) (issued ++ [entry]) := by
  refine ⟨?_, ?_, ?_⟩
  · intro index
    rw [uses, tally.uses, filled_append, filled_cons, UInt32.ofNat_add]
    split <;> rfl
  · intro before other later split
    rcases List.eq_nil_or_concat later with rfl | ⟨rest, last, rfl⟩
    · obtain ⟨rfl, rfl⟩ : issued = before ∧ entry = other := by simpa using List.append_inj' split rfl
      rw [counted, tally.uses]
    · refine tally.generation before other rest ?_
      rw [List.concat_eq_append, ← List.cons_append, ← List.append_assoc] at split
      exact (List.append_inj' split rfl).1
  · intro other member
    have known : other = entry ∨ other ∈ front ++ back := by
      simp only [List.mem_append, List.mem_cons] at member ⊢
      tauto
    rcases known with rfl | known
    · exact ⟨issued, [], rfl, rfl⟩
    · obtain ⟨before, later, rfl, none⟩ := tally.latest other known
      refine ⟨before, later ++ [entry], by simp, ?_⟩
      rw [filled_append, none, filled_cons, if_neg (Ne.symm (apart other known))]
      rfl

/-- What an entry's handle reaches is the entry itself, or the slot was filled a multiple of 2³² times since. -/
theorem reaches (tally : q.Tally entries issued) {before later : List Entry} {other : Entry}
    (split : issued = before ++ entry :: later) (pending : other ∈ entries)
    (same : other.handle = entry.handle) :
    other = entry ∨
      0 < filled entry.handle.index later ∧ UInt32.size ∣ filled entry.handle.index later := by
  obtain ⟨front, back, whole, none⟩ := tally.latest other pending
  rw [same] at none
  have counts := tally.generation _ _ _ whole
  rw [same, tally.generation _ _ _ split] at counts
  rcases List.append_eq_append_iff.mp (split.symm.trans whole) with ⟨mid, rfl, rest⟩ | ⟨mid, rfl, rest⟩
  · cases mid with
    | nil =>
      cases rest
      exact .inl rfl
    | cons first mid =>
      -- The pending event got the slot later, and the counts of the two agree as far as they go.
      rw [List.cons_append, List.cons.injEq] at rest
      obtain ⟨rfl, rfl⟩ := rest
      right
      have since : filled entry.handle.index (mid ++ other :: back) = filled entry.handle.index mid + 1 := by
        rw [filled_append, filled_cons, none, same, if_pos rfl]
      rw [filled_append, filled_cons, if_pos rfl] at counts
      have wraps := congrArg UInt32.toNat counts
      simp only [UInt32.toNat_ofNat'] at wraps
      rw [since, UInt32.size]
      omega
  · cases mid with
    | nil =>
      cases rest
      exact .inl rfl
    | cons first mid =>
      -- The slot of the pending event would have been filled since.
      rw [List.cons_append, List.cons.injEq] at rest
      obtain ⟨rfl, rfl⟩ := rest
      rw [filled_append, filled_cons, if_pos rfl] at none
      omega

end Tally

/-! ### Runs -/

/-- A request that schedules nothing fills no slot. -/
theorem Keeps.uses_serve (keeps : q.Keeps capacity entries) {request : Request} {number : Nat}
    (nothing : issue number request (q.serve request).1 = []) (i : Nat) :
    ((q.serve request).2.slot i).uses = (q.slot i).uses := by
  cases request with
  | schedule event =>
    rw [Queue.serve] at nothing ⊢
    cases stored : q.schedule event with
    | none => rfl
    | some taken =>
      rw [stored] at nothing
      cases nothing
  | cancel handle =>
    rw [Queue.serve]
    cases cancelled : q.cancel handle with
    | none => rfl
    | some taken => exact uses_cancel cancelled i
  | drain current period => exact keeps.uses_drainTo current _ _ i
  | removeWhere p => exact uses_removeFrom p _ _ q i

theorem entries_subset {a b : Agenda} {request : Request} {answer : Answer}
    (step : Agenda.Step a request answer b) (nothing : issue a.taken request answer = []) :
    b.entries ⊆ a.entries ∧ b.taken = a.taken := by
  cases step with
  | full | stale => exact ⟨List.Subset.refl _, rfl⟩
  | scheduled => cases nothing
  | @cancelled entry front back split =>
    refine ⟨?_, rfl⟩
    rw [split]
    exact ((List.sublist_cons_self entry back).append_left front).subset
  | drained => exact ⟨(List.dropWhile_sublist _).subset, rfl⟩
  | removed => exact ⟨List.filter_sublist.subset, rfl⟩

theorem tally_serve {a b : Agenda} {request : Request} (keeps : q.Keeps a.capacity a.entries)
    (tally : q.Tally a.entries issued) (step : Agenda.Step a request (q.serve request).1 b) :
    let new := issue a.taken request (q.serve request).1
    (q.serve request).2.Tally b.entries (issued ++ new) ∧ b.taken = a.taken + new.length := by
  by_cases nothing : issue a.taken request (q.serve request).1 = []
  · obtain ⟨fewer, same⟩ := entries_subset step nothing
    dsimp only
    rw [nothing, List.append_nil]
    exact ⟨tally.withdraw fewer (keeps.uses_serve nothing), same⟩
  · cases request with
    | schedule event =>
      rw [serve] at step nothing ⊢
      cases stored : q.schedule event with
      | none =>
        rw [stored] at nothing
        exact absurd rfl nothing
      | some taken =>
        obtain ⟨counted, apart, uses⟩ := keeps.uses_schedule stored
        rw [stored] at step
        cases step with
        | scheduled room fresh split =>
          rw [split] at tally apart
          exact ⟨tally.add counted apart uses, rfl⟩
    | _ => exact absurd rfl nothing

theorem tally_run {a : Agenda} (keeps : q.Keeps a.capacity a.entries) (tally : q.Tally a.entries issued)
    (requests : List Request) :
    ∃ b, Agenda.Run a requests (q.observe requests) b ∧ (q.after requests).Keeps b.capacity b.entries ∧
      (q.after requests).Tally b.entries (issued ++ q.issues a.taken requests) := by
  induction requests generalizing q a issued with
  | nil => exact ⟨a, .nil, keeps, (List.append_nil issued).symm ▸ tally⟩
  | cons request requests ih =>
    obtain ⟨b, step, kept⟩ := keeps.serve request
    obtain ⟨counted, taken⟩ := tally_serve keeps tally step
    obtain ⟨c, run, last, known⟩ := ih kept counted
    refine ⟨c, ?_, last, ?_⟩
    · rw [observe]
      dsimp only
      rw [kept.toList]
      exact .cons step run
    · rw [List.append_assoc, taken] at known
      exact known

theorem tally_ofCapacity (capacity : Nat) : (ofCapacity capacity).Tally [] [] := by
  refine ⟨?_, ?_, nofun⟩
  · intro index
    by_cases inside : index < min capacity (UInt32.size - 2)
    · rw [slot_ofCapacity inside]
      rfl
    · have outside : (ofCapacity capacity).slot index = {} := by
        rw [slot, Array.getD, dif_neg (by simpa [ofCapacity] using inside)]
      rw [outside]
      rfl
  · intro before entry later split
    cases before <;> cases split

/-- A handle reaches the event for which it was returned for as long as that is pending, in any run of
requests. Once the event has left, the handle reaches nothing, as long as the slot was filled less than 2³²
times since. -/
theorem cancel_issued (capacity : Nat) (requests : List Request) :
    let start := ofCapacity capacity
    ∃ agenda : Agenda, Agenda.Run { capacity := min capacity (UInt32.size - 2) } requests
        (start.observe requests) agenda ∧
      ∀ before entry later, start.issues 0 requests = before ++ entry :: later →
        (entry ∈ agenda.entries →
          ∃ r, (start.after requests).cancel entry.handle = some (entry.event, r)) ∧
        (entry ∉ agenda.entries → filled entry.handle.index later < UInt32.size →
          (start.after requests).cancel entry.handle = none) := by
  intro start
  let nothing : Agenda := { capacity := min capacity (UInt32.size - 2) }
  have keeps : start.Keeps nothing.capacity nothing.entries := keeps_ofCapacity capacity
  obtain ⟨agenda, run, kept, tally⟩ := tally_run keeps (tally_ofCapacity capacity) requests
  refine ⟨agenda, run, ?_⟩
  intro before entry later split
  constructor
  · intro pending
    obtain ⟨front, back, whole⟩ := List.append_of_mem pending
    rw [whole] at kept
    obtain ⟨r, cancelled, -⟩ := kept.cancel_present
    exact ⟨r, cancelled⟩
  · intro gone few
    apply kept.cancel_absent
    intro other pending same
    rcases tally.reaches split pending same with rfl | ⟨some, wraps⟩
    · exact gone pending
    · exact absurd (Nat.le_of_dvd some wraps) (Nat.not_le.mpr few)

/-! ### One slot -/

theorem after_append (q : Queue) (requests more : List Request) :
    q.after (requests ++ more) = (q.after requests).after more := List.foldl_append

theorem Keeps.index_lt (keeps : q.Keeps capacity entries) (member : entry ∈ entries) :
    entry.handle.index < capacity := by
  obtain ⟨vacant, arena⟩ := keeps.arena
  rw [← keeps.capacity]
  exact arena.inside (List.mem_append_left _ (List.mem_map_of_mem member))

theorem Keeps.uses_eq (keeps : q.Keeps capacity entries) (member : entry ∈ entries) :
    (q.slot entry.handle.index).uses = entry.handle.generation + 1 := by
  have generation : (q.slot entry.handle.index).generation = entry.handle.generation :=
    congrArg (·.2.2) (keeps.shows entry member)
  rw [Slot.uses, generation, keeps.event_eq member]
  rfl

/-- Empty the queue and schedule an event. -/
def refill (event : Event) : List Request := [.removeWhere fun _ => true, .schedule event]

theorem Keeps.refill (keeps : q.Keeps 1 [entry]) (event : Event) :
    ∃ other, (q.after (refill event)).Keeps 1 [other] ∧ other.event = event ∧
      other.handle = ⟨entry.handle.index, entry.handle.generation + 1⟩ := by
  let before : Agenda := { capacity := 1, entries := [entry] }
  have kept : q.Keeps before.capacity before.entries := keeps
  obtain ⟨cleared, step, empty⟩ := kept.serve (.removeWhere fun _ => true)
  have uses : ((q.removeWhere fun _ => true).2.slot entry.handle.index).uses = _ := uses_removeFrom _ _ _ q _
  generalize served : q.serve (.removeWhere fun _ => true) = answered at step empty
  obtain ⟨answer, r⟩ := answered
  have left : (q.removeWhere fun _ => true).2 = r := congrArg (·.2) served
  cases step with
  | removed =>
    have empty : r.Keeps 1 [] := empty
    obtain ⟨front, back, handle, last, split, stored, -, -, -, filled⟩ := empty.schedule Nat.zero_lt_one event 0
    obtain ⟨rfl, rfl⟩ := List.append_eq_nil_iff.mp split.symm
    obtain ⟨counted, -⟩ := empty.uses_schedule stored
    -- There is one slot, so the event gets the one that was vacated.
    have only : handle.index = entry.handle.index := by
      have inside := keeps.index_lt List.mem_cons_self
      have inside' : handle.index < 1 := filled.index_lt List.mem_cons_self
      omega
    refine ⟨⟨handle, 0, event⟩, ?_, rfl, ?_⟩
    · have reached : q.after (Queue.refill event) = last := by
        rw [Queue.refill, after, List.foldl_cons, List.foldl_cons, served]
        dsimp only
        rw [Queue.serve, stored]
        rfl
      rw [reached]
      exact filled
    · rw [left, keeps.uses_eq List.mem_cons_self, ← only, ← counted] at uses
      obtain ⟨index, generation⟩ := handle
      exact congrArg₂ Handle.mk only uses

theorem Keeps.refills (keeps : q.Keeps 1 [entry]) (event : Event) (count : Nat) :
    ∃ other, (q.after (List.replicate count (Queue.refill event)).flatten).Keeps 1 [other] ∧
      other.handle = ⟨entry.handle.index, entry.handle.generation + UInt32.ofNat count⟩ := by
  induction count generalizing q entry with
  | zero => exact ⟨entry, keeps, congrArg (Handle.mk _) (UInt32.add_zero _).symm⟩
  | succ count ih =>
    obtain ⟨next, kept, -, handle⟩ := keeps.refill event
    obtain ⟨last, final, reached⟩ := ih kept
    refine ⟨last, ?_, ?_⟩
    · rw [List.replicate_succ, List.flatten_cons, after_append]
      exact final
    · rw [reached, handle, UInt32.ofNat_add, UInt32.add_assoc, UInt32.add_comm 1]
      rfl

/-- A slot that was filled another 2³² times has come round to the handle again, which reaches what is in it
then. -/
theorem cancel_reissued (event other : Event) :
    ∃ handle q r, (ofCapacity 1).schedule event = some (handle, q) ∧
      (q.after (List.replicate UInt32.size (refill other)).flatten).cancel handle = some (other, r) := by
  have keeps : (ofCapacity 1).Keeps 1 [] := keeps_ofCapacity 1
  obtain ⟨front, back, handle, q, split, stored, -, -, -, filled⟩ := keeps.schedule Nat.zero_lt_one event 0
  obtain ⟨rfl, rfl⟩ := List.append_eq_nil_iff.mp split.symm
  obtain ⟨one, kept, reached⟩ := filled.refills other (UInt32.size - 1)
  obtain ⟨last, final, rfl, again⟩ := kept.refill other
  have round : last.handle = handle := by
    rw [again, reached]
    have wraps : UInt32.ofNat (UInt32.size - 1) + 1 = 0 := by decide
    rw [UInt32.add_assoc, wraps, UInt32.add_zero]
  rw [← after_append] at final
  have all : (List.replicate UInt32.size (refill last.event)).flatten =
      (List.replicate (UInt32.size - 1) (refill last.event)).flatten ++ refill last.event := by
    have whole : UInt32.size = UInt32.size - 1 + 1 := by decide
    rw [whole, List.replicate_succ', List.flatten_append, List.flatten_singleton]
    rfl
  rw [← all, ← List.nil_append [last]] at final
  obtain ⟨r, cancelled, -⟩ := final.cancel_present
  rw [round] at cancelled
  exact ⟨handle, q, r, stored, cancelled⟩

end Queue

end OscHost
