import OscHost.Proofs.Schedule.Pending
import Mathlib.Logic.Function.Iterate

/-!
# Periods of any size

What a queue dispatches from a frame on up to another does not depend on how the frames between them
are cut into periods (`drainEach_eq_drain`). All that a period leaves is due at its end or later, so
the periods behind it find nothing that is immediate or late.
-/

namespace OscHost

theorem total_lengths {α : Type} (pieces : List (List α)) :
    total (pieces.map List.length) = pieces.flatten.length := by
  induction pieces with
  | nil => rfl
  | cons piece pieces ih => rw [List.map_cons, total, ih, List.flatten_cons, List.length_append]

theorem length_le_total {sizes : List Nat} (positive : ∀ size ∈ sizes, 0 < size) :
    sizes.length ≤ total sizes := by
  induction sizes with
  | nil => exact Nat.le_refl 0
  | cons size sizes ih =>
    obtain ⟨first, others⟩ := List.forall_mem_cons.mp positive
    have onwards := ih others
    rw [List.length_cons, total]
    omega

theorem toNat_add_of_lt {x y : UInt64} (bounded : x.toNat + y.toNat < UInt64.size) :
    (x + y).toNat = x.toNat + y.toNat := by
  rw [UInt64.toNat_add]
  exact Nat.mod_eq_of_lt bounded

/-! ### Two periods of a list -/

namespace Event

variable {current first second period later : UInt64} {event : Event} {events : List Event}

theorem isDue_eq (bounded : current.toNat + period.toNat < UInt64.size) (event : Event) :
    isDue current period event = decide (event.time.toNat < current.toNat + period.toNat) := by
  have inside : min (current.toNat + period.toNat) (UInt64.size - 1) = current.toNat + period.toNat := by
    omega
  rw [isDue, inside]

theorem isDue_add (bounded : current.toNat + first.toNat + second.toNat < UInt64.size) :
    isDue current (first + second) = isDue (current + first) second := by
  have sum : (first + second).toNat = first.toNat + second.toNat := toNat_add_of_lt (by omega)
  have start : (current + first).toNat = current.toNat + first.toNat := toNat_add_of_lt (by omega)
  funext event
  rw [isDue_eq (by omega), isDue_eq (by omega), sum, start, Nat.add_assoc]

theorem isDue_mono (bounded : current.toNat + first.toNat + second.toNat < UInt64.size)
    (due : isDue current first event = true) : isDue current (first + second) event = true := by
  have sum : (first + second).toNat = first.toNat + second.toNat := toNat_add_of_lt (by omega)
  rw [isDue_eq (by omega), decide_eq_true_eq] at due
  rw [isDue_eq (by omega), decide_eq_true_eq, sum]
  omega

theorem takeWhile_isDue_add (bounded : current.toNat + first.toNat + second.toNat < UInt64.size)
    (events : List Event) :
    events.takeWhile (isDue current (first + second)) =
      events.takeWhile (isDue current first) ++
        (events.dropWhile (isDue current first)).takeWhile (isDue (current + first) second) := by
  induction events with
  | nil => rfl
  | cons event events ih =>
    by_cases due : isDue current first event = true
    · rw [List.takeWhile_cons_of_pos due, List.dropWhile_cons_of_pos due,
        List.takeWhile_cons_of_pos (isDue_mono bounded due), List.cons_append]
      exact congrArg (List.cons event) ih
    · rw [List.takeWhile_cons_of_neg due, List.dropWhile_cons_of_neg due, List.nil_append,
        isDue_add bounded]

theorem le_of_mem_dropWhile (sorted : (events.map (·.time)).Pairwise (· ≤ ·))
    (bounded : current.toNat + period.toNat < UInt64.size)
    (member : event ∈ events.dropWhile (isDue current period)) : current + period ≤ event.time := by
  have finish : (current + period).toNat = current.toNat + period.toNat := toNat_add_of_lt bounded
  rw [List.pairwise_map] at sorted
  have order := sorted.sublist (List.dropWhile_sublist (isDue current period))
  have stopped := List.head?_dropWhile_not (isDue current period) events
  cases left : events.dropWhile (isDue current period) with
  | nil =>
    rw [left] at member
    cases member
  | cons next others =>
    rw [left] at member order stopped
    have ahead : current + period ≤ next.time := by
      have late : isDue current period next = false := by simpa using stopped
      rw [isDue_eq bounded, decide_eq_false_iff_not, Nat.not_lt] at late
      rw [UInt64.le_iff_toNat_le, finish]
      exact late
    rcases List.mem_cons.mp member with rfl | member
    · exact ahead
    · exact UInt64.le_trans ahead (List.rel_of_pairwise_cons order member)

/-- An event that is due at a later frame or behind it is dispatched and reported from there as it is
from here. It can only be immediate if the two frames are the same. -/
theorem clamped_later (forward : current ≤ later) (ahead : later ≤ event.time) :
    event.clamped current = event.clamped later ∧ event.report? current = event.report? later := by
  have notLate : ¬event.time < later := UInt64.not_lt.mpr ahead
  have notEarlier : ¬event.time < current := UInt64.not_lt.mpr (UInt64.le_trans forward ahead)
  rw [report?, report?, if_neg fun late => notEarlier late.2, if_neg fun late => notLate late.2]
  refine ⟨?_, rfl⟩
  by_cases immediate : event.time = 0
  · rw [immediate] at ahead
    obtain rfl : later = 0 := UInt64.le_zero_iff.mp ahead
    obtain rfl : current = 0 := UInt64.le_zero_iff.mp forward
    rfl
  · rw [clamped, clamped, if_neg fun early => early.elim immediate notEarlier,
      if_neg fun early => early.elim immediate notLate]

end Event

/-! ### Two periods of a queue -/

namespace Queue

variable {q : Queue} {capacity : Nat} {entries : List Entry}

/-- The queue without its first event. -/
def withoutFirst (q : Queue) : Queue :=
  match q.head with
  | none => q
  | some index => (q.unlink index).2

theorem Keeps.withoutFirst {entry : Entry} (keeps : q.Keeps capacity (entry :: entries)) :
    q.withoutFirst = (q.unlink entry.handle.index).2 ∧ q.withoutFirst.Keeps capacity entries := by
  have same : q.withoutFirst = (q.unlink entry.handle.index).2 := by
    rw [Queue.withoutFirst, keeps.head_eq]
    rfl
  rw [← List.nil_append (entry :: entries)] at keeps
  exact ⟨same, same ▸ keeps.unlink⟩

/-- What a period leaves is the queue without its first events, as many as were dispatched. -/
theorem Keeps.drainTo_rest (keeps : q.Keeps capacity entries) (current limit : UInt64) {steps : Nat}
    (enough : entries.length ≤ steps) :
    (Queue.drainTo current limit steps q).2 =
      Queue.withoutFirst^[(Queue.drainTo current limit steps q).1.events.length] q := by
  induction entries generalizing q steps with
  | nil =>
    have empty := keeps.head_eq
    cases steps with
    | zero => rfl
    | succ steps =>
      rw [Queue.drainTo, empty]
      rfl
  | cons entry entries ih =>
    obtain ⟨steps, rfl⟩ : ∃ n, steps = n + 1 := ⟨steps - 1, by simp at enough; omega⟩
    obtain ⟨same, kept⟩ := keeps.withoutFirst
    have fewer : entries.length ≤ steps := by simpa using enough
    have onwards := ih kept fewer
    have event := keeps.event_eq List.mem_cons_self
    rw [Queue.drainTo, keeps.head_eq]
    simp only [List.map_cons, List.head?_cons]
    split
    · rfl
    · have taken : (q.unlink entry.handle.index).1 = some entry.event := event
      rw [same] at onwards
      generalize q.unlink entry.handle.index = unlinked at taken same onwards
      obtain ⟨_, rest⟩ := unlinked
      cases taken
      dsimp only at same onwards ⊢
      rw [List.length_cons, Function.iterate_succ_apply, same]
      exact onwards

theorem Sound.drain_rest (sound : q.Sound) (current period : UInt64) :
    (q.drain current period).2 = withoutFirst^[(q.drain current period).1.events.length] q := by
  obtain ⟨agenda, keeps, -⟩ := sound
  exact keeps.drainTo_rest _ _ (Nat.le_of_eq keeps.count_eq.symm)

theorem Sound.drain_add (sound : q.Sound) (current first second : UInt64)
    (bounded : current.toNat + first.toNat + second.toNat < UInt64.size) :
    let before := q.drain current first
    let behind := before.2.drain (current + first) second
    let whole := q.drain current (first + second)
    whole.1.events = before.1.events ++ behind.1.events ∧
      whole.1.reports current = before.1.reports current ++ behind.1.reports (current + first) ∧
      whole.2 = behind.2 := by
  intro before behind whole
  obtain ⟨events, reports, left⟩ := sound.toList_drain current first
  have kept : before.2.Sound := (q.becomes_drain current first).sound sound
  obtain ⟨moreEvents, moreReports, -⟩ := kept.toList_drain (current + first) second
  obtain ⟨allEvents, allReports, -⟩ := sound.toList_drain current (first + second)
  rw [Event.takeWhile_isDue_add bounded] at allEvents allReports
  rw [left] at moreEvents moreReports
  have forward : current ≤ current + first := by
    rw [UInt64.le_iff_toNat_le, toNat_add_of_lt (by omega)]
    exact Nat.le_add_right _ _
  have same : ∀ event ∈ (q.toList.dropWhile (Event.isDue current first)).takeWhile
      (Event.isDue (current + first) second),
      event.clamped current = event.clamped (current + first) ∧
        event.report? current = event.report? (current + first) := by
    intro event member
    have ahead := (List.takeWhile_sublist _).subset member
    exact Event.clamped_later forward (Event.le_of_mem_dropWhile sound.sorted (by omega) ahead)
  have joined : whole.1.events = before.1.events ++ behind.1.events := by
    rw [show whole.1.events = _ from allEvents, show before.1.events = _ from events,
      show behind.1.events = _ from moreEvents, List.map_append]
    exact congrArg _ (List.map_congr_left fun event member => (same event member).1)
  refine ⟨joined, ?_, ?_⟩
  · rw [show whole.1.reports current = _ from allReports, show before.1.reports current = _ from reports,
      show behind.1.reports (current + first) = _ from moreReports, List.filterMap_append]
    exact congrArg _ (List.filterMap_congr fun event member => (same event member).2)
  · have rest : before.2 = withoutFirst^[before.1.events.length] q := sound.drain_rest current first
    have last : behind.2 = withoutFirst^[behind.1.events.length] before.2 := kept.drain_rest _ second
    have all : whole.2 = withoutFirst^[whole.1.events.length] q := sound.drain_rest current _
    rw [all, last, rest, joined, List.length_append, ← Function.iterate_add_apply, Nat.add_comm]

/-! ### Many periods -/

/-- Drain one period after the other, of which the first starts at `current`. The answer holds what
each dispatches and reports. -/
def drainEach (q : Queue) (current : UInt64) : List UInt64 → List (List Event × List Diagnostic) × Queue
  | [] => ([], q)
  | period :: periods =>
    let (drained, q) := q.drain current period
    let (pieces, q) := q.drainEach (current + period) periods
    ((drained.events, drained.reports current) :: pieces, q)

/-- The frames of all the periods. -/
def allFrames (periods : List UInt64) : UInt64 := .ofNat (total (periods.map UInt64.toNat))

theorem allFrames_cons (period : UInt64) (periods : List UInt64) :
    allFrames (period :: periods) = period + allFrames periods := by
  rw [allFrames, allFrames, List.map_cons, total, UInt64.ofNat_add, UInt64.ofNat_toNat]

theorem toNat_allFrames {periods : List UInt64} (bounded : total (periods.map UInt64.toNat) < UInt64.size) :
    (allFrames periods).toNat = total (periods.map UInt64.toNat) :=
  UInt64.toNat_ofNat_of_lt' bounded

theorem Sound.drainEach (sound : q.Sound) (current period : UInt64) {periods : List UInt64}
    (bounded : current.toNat + total ((period :: periods).map UInt64.toNat) < UInt64.size) :
    let pieces := q.drainEach current (period :: periods)
    let whole := q.drain current (allFrames (period :: periods))
    pieces.1.flatMap (·.1) = whole.1.events ∧ pieces.1.flatMap (·.2) = whole.1.reports current ∧
      pieces.2 = whole.2 := by
  induction periods generalizing q current period with
  | nil =>
    have alone : allFrames [period] = period := by
      rw [allFrames, List.map_singleton, total, total, Nat.add_zero, UInt64.ofNat_toNat]
    rw [alone]
    exact ⟨List.append_nil _, List.append_nil _, rfl⟩
  | cons next periods ih =>
    rw [List.map_cons, total] at bounded
    have start : (current + period).toNat = current.toNat + period.toNat := toNat_add_of_lt (by omega)
    have sum : (allFrames (next :: periods)).toNat = _ := toNat_allFrames (by omega)
    obtain ⟨events, reports, rest⟩ :=
      ih ((q.becomes_drain current period).sound sound) (current + period) next (by omega)
    obtain ⟨allEvents, allReports, left⟩ :=
      sound.drain_add current period (allFrames (next :: periods)) (by omega)
    intro pieces whole
    have cut : whole = q.drain current (period + allFrames (next :: periods)) := by
      rw [← allFrames_cons]
    rw [cut, allEvents, allReports, left, ← events, ← reports, ← rest]
    exact ⟨rfl, rfl, rfl⟩

end Queue

namespace Desk

/-- Take out one period after the other, of which the first starts at `current`, with a report of all
that is late. -/
def drainEach (desk : Desk) (current : UInt64) : List UInt64 → List (List Event) × Desk
  | [] => ([], desk)
  | period :: periods =>
    let (events, desk) := desk.drain current period
    let (pieces, desk) := desk.drainEach (current + period) periods
    (events :: pieces, desk)

theorem drainEach_eq (desk : Desk) (current : UInt64) (periods : List UInt64) :
    let pieces := desk.queue.drainEach current periods
    desk.drainEach current periods =
      (pieces.1.map (·.1),
        { desk with queue := pieces.2, channel := desk.channel.sendAll (pieces.1.flatMap (·.2)) }) := by
  induction periods generalizing desk current with
  | nil => rfl
  | cons period periods ih =>
    rw [drainEach, drain]
    dsimp only
    rw [ih, Queue.drainEach]
    simp only [Channel.sendAll, List.map_cons, List.flatMap_cons, List.foldl_append]

/-- From a frame on, up to a later one, the same events are dispatched at the same times, the same late
events are reported, and the same queue is left, however the frames between are cut into periods. -/
theorem drainEach_eq_drain (capacity : Nat) (desk : Desk)
    (reached : (Queue.ofCapacity capacity).Becomes desk.queue) (current period : UInt64)
    (periods : List UInt64)
    (bounded : current.toNat + total ((period :: periods).map UInt64.toNat) < UInt64.size) :
    let pieces := desk.queue.drainEach current (period :: periods)
    let drained := desk.queue.drain current (Queue.allFrames (period :: periods))
    let each := desk.drainEach current (period :: periods)
    let whole := desk.drain current (Queue.allFrames (period :: periods))
    pieces.1.flatMap (·.1) = drained.1.events ∧ pieces.1.flatMap (·.2) = drained.1.reports current ∧
      each.1.flatten = whole.1 ∧ total (each.1.map List.length) = whole.1.length ∧ each.2 = whole.2 := by
  intro pieces drained each whole
  obtain ⟨events, reports, rest⟩ :=
    (reached.sound (Queue.sound_ofCapacity capacity)).drainEach current period bounded
  have same : each = _ := drainEach_eq desk current (period :: periods)
  have flat : each.1.flatten = whole.1 := by
    rw [same, ← List.flatMap_def]
    exact events
  refine ⟨events, reports, flat, ?_, ?_⟩
  · rw [← flat, total_lengths]
  · rw [same, rest, reports]
    rfl

/-- Three events are due within sixty frames from frame 100 on: one is immediate, one is late, and one
lies ahead. The first of three periods has no frames. -/
theorem drainEach_eq_drain_hundred :
    let event := fun time => ({ destination := .broadcast, time, payload := ⟨[], 8⟩ } : Event)
    let requests : List Queue.Request :=
      [.schedule (event 130), .schedule (event 0), .schedule (event 160), .schedule (event 50)]
    let queue := requests.foldl (fun q request => (q.serve request).2) (Queue.ofCapacity 4)
    let desk : Desk := { queue, pool := .ofSettings {}, channel := .ofCapacity 4 }
    (Queue.ofCapacity 4).Becomes desk.queue ∧ 100 + total [0, 20, 40] < UInt64.size ∧
      (desk.drainEach 100 [0, 20, 40]).1.map (·.map (·.time)) = [[100, 100], [], [130]] ∧
      (desk.drain 100 60).1.map (·.time) = [100, 100, 130] ∧
      (desk.drainEach 100 [0, 20, 40]).2.channel.ring.pending = [.lateEvent .broadcast 50 100] ∧
      (desk.drainEach 100 [0, 20, 40]).2 = (desk.drain 100 60).2 := by
  intro event requests queue desk
  have reached : (Queue.ofCapacity 4).Becomes desk.queue :=
    (((Queue.becomes_serve _ _).trans (Queue.becomes_serve _ _)).trans (Queue.becomes_serve _ _)).trans
      (Queue.becomes_serve _ _)
  have bounded : 100 + total [0, 20, 40] < UInt64.size := by decide
  obtain ⟨-, -, -, -, same⟩ := drainEach_eq_drain 4 desk reached 100 0 [20, 40] bounded
  exact ⟨reached, bounded, by decide +kernel, by decide +kernel, by decide +kernel, same⟩

end Desk

end OscHost
