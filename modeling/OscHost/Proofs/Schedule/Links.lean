import OscHost.Schedule.Queue
import Mathlib.Data.List.Chain
import Mathlib.Data.List.Nodup
import Mathlib.Data.Option.Basic

/-!
# Links between slots

The pending slots of a queue form a ring through the stop `none`, which stands for both ends of the
queue: the head is what follows it and the tail what precedes it. `link` then always joins one stop
to another, and `linked_link` says when that joins two parts of a chain.
-/

namespace OscHost

/-- What a slot holds, apart from its links. -/
def Slot.held (slot : Slot) : Option Event × UInt64 × UInt32 := (slot.event, slot.time, slot.generation)

theorem Slot.held_eq_iff {s t : Slot} :
    s.held = t.held ↔ s.event = t.event ∧ s.time = t.time ∧ s.generation = t.generation := by
  simp [held]

namespace Queue

/-! ### Links -/

/-- Where a step forward leads. The stop `none` lies before the first slot and behind the last. -/
def following (q : Queue) : Option Nat → Option Nat
  | none => q.head
  | some index => (q.slot index).next

def preceding (q : Queue) : Option Nat → Option Nat
  | none => q.tail
  | some index => (q.slot index).prev

def Adjacent (q : Queue) (x y : Option Nat) : Prop := q.following x = y ∧ q.preceding y = x

theorem slot_modifySlot (q : Queue) (i j : Nat) (change : Slot → Slot) :
    (q.modifySlot i change).slot j =
      if i = j ∧ j < q.slots.size then change (q.slot j) else q.slot j := by
  simp only [slot, modifySlot, Array.getD_eq_getD_getElem?, Array.getElem?_modify]
  by_cases same : i = j
  · by_cases inside : j < q.slots.size
    · simp [same, inside]
    · simp [same, inside]
  · simp [same]

theorem slot_modifySlot_other (q : Queue) {i j : Nat} (change : Slot → Slot) (other : j ≠ i) :
    (q.modifySlot i change).slot j = q.slot j := by
  rw [slot_modifySlot, if_neg fun both => other both.1.symm]

theorem slot_modifySlot_same (q : Queue) {i : Nat} (change : Slot → Slot) (inside : i < q.slots.size) :
    (q.modifySlot i change).slot i = change (q.slot i) := by
  rw [slot_modifySlot, if_pos ⟨rfl, inside⟩]

@[simp] theorem size_modifySlot (q : Queue) (i : Nat) (change : Slot → Slot) :
    (q.modifySlot i change).slots.size = q.slots.size := by
  simp [modifySlot]

@[simp] theorem size_link (q : Queue) (x y : Option Nat) :
    (q.link x y).slots.size = q.slots.size := by
  cases x <;> cases y <;> simp [link]

theorem free_link (q : Queue) (x y : Option Nat) : (q.link x y).free = q.free := by
  cases x <;> cases y <;> rfl

theorem count_link (q : Queue) (x y : Option Nat) : (q.link x y).size = q.size := by
  cases x <;> cases y <;> rfl

theorem held_modifySlot {q : Queue} {i j : Nat} {change : Slot → Slot}
    (keeps : ∀ slot, (change slot).held = slot.held) :
    ((q.modifySlot i change).slot j).held = (q.slot j).held := by
  rw [slot_modifySlot]
  split
  · exact keeps _
  · rfl

theorem held_link (q : Queue) (x y : Option Nat) (i : Nat) :
    ((q.link x y).slot i).held = (q.slot i).held := by
  cases x <;> cases y <;> simp only [link]
  · rfl
  · exact held_modifySlot fun _ => rfl
  · exact held_modifySlot fun _ => rfl
  · refine (held_modifySlot ?_).trans (held_modifySlot ?_)
    · intro slot
      rfl
    · intro slot
      rfl

theorem following_link (q : Queue) {x : Option Nat} (y : Option Nat) (inside : ∀ i ∈ x, i < q.slots.size)
    (z : Option Nat) : (q.link x y).following z = if z = x then y else q.following z := by
  cases x <;> cases y <;> cases z <;>
    simp only [link, following, slot, modifySlot, Array.getD_eq_getD_getElem?, Array.getElem?_modify]
  all_goals grind

theorem preceding_link (q : Queue) (x : Option Nat) {y : Option Nat} (inside : ∀ i ∈ y, i < q.slots.size)
    (z : Option Nat) : (q.link x y).preceding z = if z = y then x else q.preceding z := by
  cases x <;> cases y <;> cases z <;>
    simp only [link, preceding, slot, modifySlot, Array.getD_eq_getD_getElem?, Array.getElem?_modify]
  all_goals grind

/-! ### Chains of neighbours -/

/-- The stops on the way through a chain, from `none` to `none`. -/
def stops (chain : List Nat) : List (Option Nat) := none :: chain.map some ++ [none]

/-- A new link breaks no chain in which neither of its ends has a neighbour on that side. -/
theorem chain_link {q : Queue} {x y : Option Nat} {line : List (Option Nat)}
    (chained : line.IsChain q.Adjacent) (insideX : ∀ i ∈ x, i < q.slots.size)
    (insideY : ∀ i ∈ y, i < q.slots.size) (open_x : x ∉ line.dropLast) (open_y : y ∉ line.tail) :
    line.IsChain (q.link x y).Adjacent := by
  induction line with
  | nil => exact List.isChain_nil
  | cons u line ih =>
    cases line with
    | nil => exact List.isChain_singleton _
    | cons v line =>
      rw [List.isChain_cons_cons] at chained ⊢
      obtain ⟨⟨forward, backward⟩, rest⟩ := chained
      simp only [List.dropLast_cons_cons, List.mem_cons, not_or, List.tail_cons] at open_x open_y
      refine ⟨⟨?_, ?_⟩, ih rest open_x.2 ?_⟩
      · rw [following_link q y insideX, if_neg (Ne.symm open_x.1), forward]
      · rw [preceding_link q x insideY, if_neg (Ne.symm open_y.1), backward]
      · exact open_y.2

theorem adjacent_link (q : Queue) {x y : Option Nat} (insideX : ∀ i ∈ x, i < q.slots.size)
    (insideY : ∀ i ∈ y, i < q.slots.size) : (q.link x y).Adjacent x y := by
  constructor
  · rw [following_link q y insideX, if_pos rfl]
  · rw [preceding_link q x insideY, if_pos rfl]

theorem stops_front (front : List Nat) :
    none :: front.map some = (none :: front.map some).dropLast ++ [front.getLast?] := by
  have last : (none :: front.map some).getLast (by simp) = front.getLast? := by
    rcases List.eq_nil_or_concat front with rfl | ⟨front, index, rfl⟩
    · rfl
    · simp
  rw [← last, List.dropLast_append_getLast]

theorem stops_back (back : List Nat) :
    back.map some ++ [none] = back.head? :: (back.map some ++ [none]).tail := by
  cases back <;> rfl

/-- A chain is linked if both of its parts are and the parts meet. -/
theorem linked_append {q : Queue} {front back : List Nat} :
    (stops (front ++ back)).IsChain q.Adjacent ↔
      (none :: front.map some).IsChain q.Adjacent ∧ q.Adjacent front.getLast? back.head? ∧
        (back.map some ++ [none]).IsChain q.Adjacent := by
  have whole : stops (front ++ back) = (none :: front.map some) ++ (back.map some ++ [none]) := by
    simp [stops]
  rw [whole, stops_front, stops_back, List.append_assoc, List.singleton_append,
    List.isChain_append_cons_cons]

/-- Two parts of a chain that were apart are joined by a link from the last slot of the one to the
first of the other. -/
theorem linked_link {q : Queue} {front back : List Nat} (distinct : (front ++ back).Nodup)
    (inside : ∀ i ∈ front ++ back, i < q.slots.size)
    (left : (none :: front.map some).IsChain q.Adjacent)
    (right : (back.map some ++ [none]).IsChain q.Adjacent) :
    (stops (front ++ back)).IsChain (q.link front.getLast? back.head?).Adjacent := by
  have insideX : ∀ i ∈ front.getLast?, i < q.slots.size := fun i last =>
    inside i (List.mem_append_left _ (List.mem_of_getLast? last))
  have insideY : ∀ i ∈ back.head?, i < q.slots.size := fun i first =>
    inside i (List.mem_append_right _ (List.mem_of_head? first))
  -- Every stop but the last is the source of one link, every stop but the first the target of one.
  have sources : ((none :: front.map some) ++ back.map some).Nodup := by
    simpa [← List.map_append] using distinct.map (Option.some_injective Nat)
  have targets : (front.map some ++ (back.map some ++ [none])).Nodup := by
    rw [← List.append_assoc, ← List.map_append, ← List.concat_eq_append]
    exact (distinct.map (Option.some_injective Nat)).concat (by simp)
  refine linked_append.mpr ⟨chain_link left insideX insideY ?_ ?_, adjacent_link q insideX insideY,
    chain_link right insideX insideY ?_ ?_⟩
  · rw [stops_front] at sources
    grind
  · rw [stops_back] at targets
    grind
  · rw [stops_front] at sources
    rw [List.dropLast_concat]
    grind
  · rw [stops_back] at targets
    grind

/-- A slot that is in no chain is linked behind the first of two parts. -/
theorem linked_extend {q : Queue} {front back : List Nat} {index : Nat}
    (distinct : (front ++ index :: back).Nodup) (inside : ∀ i ∈ front ++ index :: back, i < q.slots.size)
    (left : (none :: front.map some).IsChain q.Adjacent)
    (right : (back.map some ++ [none]).IsChain q.Adjacent) :
    (none :: (front ++ [index]).map some).IsChain (q.link front.getLast? (some index)).Adjacent ∧
      (back.map some ++ [none]).IsChain (q.link front.getLast? (some index)).Adjacent := by
  have insideX : ∀ i ∈ front.getLast?, i < q.slots.size := fun i last =>
    inside i (List.mem_append_left _ (List.mem_of_getLast? last))
  have insideY : ∀ i ∈ some index, i < q.slots.size := fun i same => inside i (by grind)
  have sources : ((none :: front.map some) ++ back.map some).Nodup := by
    have apart : (front ++ back).Nodup := by grind
    simpa [← List.map_append] using apart.map (Option.some_injective Nat)
  have fresh : index ∉ front ++ back := by grind
  constructor
  · have extended : none :: (front ++ [index]).map some =
        (none :: front.map some).dropLast ++ front.getLast? :: [some index] := by
      rw [List.map_append, ← List.cons_append]
      nth_rewrite 1 [stops_front]
      rw [List.append_assoc]
      rfl
    rw [extended, List.isChain_append_cons_cons, ← stops_front]
    refine ⟨chain_link left insideX insideY ?_ ?_, adjacent_link q insideX insideY,
      List.isChain_singleton _⟩
    · rw [stops_front] at sources
      grind
    · grind
  · refine chain_link right insideX insideY ?_ ?_
    · rw [stops_front] at sources
      rw [List.dropLast_concat]
      grind
    · intro member
      exact fresh (List.mem_append_right _ (by simpa using List.mem_of_mem_tail member))

end Queue

end OscHost
