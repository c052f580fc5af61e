import OscHost.Proofs.Schedule.Storage

/-!
# Shelves

A pool as its users know it: for each class the size of its blocks and how many of them it stores, free or on
their way. Whether a payload gets a buffer is decided by the first shelf whose blocks are large enough, and a
buffer that is given back at once leaves the shelves as they were.
-/

namespace OscHost

structure Shelf where
  size : Nat
  count : Nat
  deriving DecidableEq, Repr

/-- The shelves without a block for a payload of this length, if the shelf that it comes from has one. -/
def takeBlock (length : Nat) : List Shelf → Option (List Shelf)
  | [] => none
  | shelf :: rest =>
    if shelf.size < length then (takeBlock length rest).map (shelf :: ·)
    else if shelf.count = 0 then none
    else some ({ shelf with count := shelf.count - 1 } :: rest)

/-- A payload that is longer than the limit gets none, whatever there is. -/
def takeWithin (limit length : Nat) (shelves : List Shelf) : Option (List Shelf) :=
  if limit < length then none else takeBlock length shelves

theorem takeBlock_small {length : Nat} {shelves : List Shelf} (small : ∀ shelf ∈ shelves, shelf.size < length) :
    takeBlock length shelves = none := by
  induction shelves with
  | nil => rfl
  | cons shelf shelves ih =>
    obtain ⟨first, others⟩ := List.forall_mem_cons.mp small
    rw [takeBlock, if_pos first, ih others, Option.map_none]

theorem takeBlock_append {length : Nat} {before after : List Shelf} {shelf : Shelf}
    (small : ∀ other ∈ before, other.size < length) (large : length ≤ shelf.size) :
    takeBlock length (before ++ shelf :: after) =
      if shelf.count = 0 then none
      else some (before ++ { shelf with count := shelf.count - 1 } :: after) := by
  induction before with
  | nil => rw [List.nil_append, takeBlock, if_neg (Nat.not_lt.mpr large), List.nil_append]
  | cons other before ih =>
    obtain ⟨first, others⟩ := List.forall_mem_cons.mp small
    rw [List.cons_append, takeBlock, if_pos first, ih others]
    split <;> rfl

namespace SizeClass

variable {c : SizeClass} {preallocate : Nat}

def shelf (c : SizeClass) : Shelf := ⟨c.size, c.stored⟩

theorem Conforms.take_shelf (conforms : c.Conforms preallocate) (low : Nat) :
    (c.take low).2.shelf = { c.shelf with count := c.stored - 1 } ∧
      ((c.take low).1 = none ↔ c.stored = 0) := by
  obtain ⟨-, -, balance⟩ := conforms.take low
  have size := c.size_take low
  cases taken : (c.take low).1 with
  | none =>
    have empty : c.stored = 0 := by
      apply Nat.eq_zero_of_not_pos
      intro stored
      obtain ⟨block, given⟩ := conforms.take_some stored low
      cases given.symm.trans taken
    simp only [taken, Option.toList_none, List.length_nil] at balance
    simp only [shelf, size, empty, Shelf.mk.injEq, true_and, and_true]
    omega
  | some block =>
    simp only [taken, Option.toList_some, List.length_singleton] at balance
    simp only [shelf, size, Shelf.mk.injEq, reduceCtorEq, true_and, false_iff]
    omega

/-- A block that is put back where one was taken. -/
theorem give_shelf {d : SizeClass} (taken : d.shelf = { c.shelf with count := c.stored - 1 })
    (stored : c.stored ≠ 0) (room : d.free.length < d.limit) (block : Block) :
    (d.give block).shelf = c.shelf := by
  simp only [shelf, SizeClass.stored, Shelf.mk.injEq] at taken stored ⊢
  rw [give, if_pos room]
  simp only [List.length_cons]
  omega

end SizeClass

namespace Pool

def shelves (pool : Pool) : List Shelf := pool.classes.map SizeClass.shelf

/-- What the shelves are after a payload of this length got a buffer. -/
def supply (pool : Pool) (length : Nat) : Option (List Shelf) := takeWithin pool.maxPayload length pool.shelves

variable {settings : Settings} {pool : Pool} {length : Nat}

theorem release_append {before after : List SizeClass} {c : SizeClass} {buffer : Buffer}
    (whole : pool.classes = before ++ c :: after) (apart : ∀ d ∈ before, d.size ≠ buffer.capacity)
    (fits : c.size = buffer.capacity) :
    pool.release buffer = { pool with classes := before ++ c.give ⟨buffer.capacity⟩ :: after } := by
  have pass : ∀ d ∈ before, (d.size == buffer.capacity) = false := by
    intro d member
    exact beq_false_of_ne (apart d member)
  rw [release, whole, splitAtFirst_append pass (beq_iff_eq.mpr fits)]

/-- A payload gets a buffer just when the shelves can supply one. -/
theorem Conforms.alloc_shelves (conforms : pool.Conforms settings) (length : Nat) :
    (pool.alloc length).2.shelves = (pool.supply length).getD pool.shelves ∧
      ((pool.alloc length).1 = none ↔ pool.supply length = none) := by
  rcases alloc_cases pool length with
    ⟨refused, same⟩ | ⟨before, c, after, requested, signal, whole, ⟨short, smaller, large⟩, same⟩
  · have none : pool.supply length = none := by
      unfold supply takeWithin
      split
      · rfl
      · rename_i short
        apply takeBlock_small
        intro shelf member
        obtain ⟨c, present, rfl⟩ := List.mem_map.mp member
        exact refused.resolve_left short c present
    rw [same, none]
    exact ⟨rfl, iff_of_true rfl rfl⟩
  · obtain ⟨taken, refused⟩ := (conforms.at whole).take_shelf pool.lowWatermark
    have supplied : pool.supply length = if c.stored = 0 then none else
        some (before.map SizeClass.shelf ++ (c.take pool.lowWatermark).2.shelf ::
          after.map SizeClass.shelf) := by
      have smaller : ∀ shelf ∈ before.map SizeClass.shelf, shelf.size < length := by
        intro shelf member
        obtain ⟨d, present, rfl⟩ := List.mem_map.mp member
        exact smaller d present
      rw [taken, supply, takeWithin, if_neg (Nat.not_lt.mpr short), shelves, whole, List.map_append, List.map_cons]
      exact takeBlock_append smaller large
    have shown : (pool.alloc length).2.shelves = before.map SizeClass.shelf ++
        (c.take pool.lowWatermark).2.shelf :: after.map SizeClass.shelf := by
      rw [same, shelves, List.map_append, List.map_cons]
      rfl
    rw [shown, supplied, same, Option.map_eq_none_iff, refused]
    split
    · rename_i empty
      refine ⟨?_, iff_of_true empty rfl⟩
      rw [taken, empty, Option.getD_none, shelves, whole, List.map_append, List.map_cons, SizeClass.shelf, empty]
    · rename_i stored
      exact ⟨rfl, iff_of_false stored nofun⟩

theorem Conforms.alloc_some (conforms : pool.Conforms settings) {shelves : List Shelf}
    (supplied : pool.supply length = some shelves) :
    ∃ buffer rest, pool.alloc length = (some buffer, rest) ∧ rest.shelves = shelves ∧
      rest.maxPayload = pool.maxPayload ∧ rest.Conforms settings := by
  obtain ⟨left, refused⟩ := conforms.alloc_shelves length
  have limit := pool.maxPayload_alloc length
  have kept := (conforms.alloc length).1
  rw [supplied] at left refused
  generalize pool.alloc length = outcome at left refused limit kept ⊢
  obtain ⟨answer, rest⟩ := outcome
  cases answer with
  | none => cases refused.mp rfl
  | some buffer => exact ⟨buffer, rest, rfl, left, limit, kept⟩

theorem Conforms.alloc_none (conforms : pool.Conforms settings) (supplied : pool.supply length = none) :
    ∃ rest, pool.alloc length = (none, rest) ∧ rest.shelves = pool.shelves ∧
      rest.maxPayload = pool.maxPayload ∧ rest.Conforms settings := by
  obtain ⟨left, refused⟩ := conforms.alloc_shelves length
  have limit := pool.maxPayload_alloc length
  have kept := (conforms.alloc length).1
  rw [supplied] at left refused
  generalize pool.alloc length = outcome at left refused limit kept ⊢
  obtain ⟨answer, rest⟩ := outcome
  cases answer with
  | none => exact ⟨rest, rfl, left, limit, kept⟩
  | some buffer => cases refused.mpr rfl

theorem Conforms.release_shelves (conforms : pool.Conforms settings) {buffer back : Buffer} {rest : Pool}
    (given : pool.alloc length = (some buffer, rest)) (same : back.capacity = buffer.capacity) :
    (rest.release back).shelves = pool.shelves := by
  rcases alloc_cases pool length with
    ⟨-, result⟩ | ⟨before, c, after, requested, signal, whole, ⟨-, smaller, large⟩, result⟩
  · cases result.symm.trans given
  · obtain ⟨supplied, rfl⟩ := Prod.mk.inj (result.symm.trans given)
    obtain ⟨block, taken, rfl⟩ := Option.map_eq_some_iff.mp supplied
    have sound := conforms.at whole
    have fits : back.capacity = c.size := same.trans ((sound.take pool.lowWatermark).2.1 block taken)
    have room := sound.take_room taken
    obtain ⟨left, refused⟩ := sound.take_shelf pool.lowWatermark
    have stored : c.stored ≠ 0 := by
      intro empty
      cases (refused.mpr empty).symm.trans taken
    have size := (c.size_take pool.lowWatermark).trans fits.symm
    have apart : ∀ d ∈ before, d.size ≠ back.capacity := by
      intro d member
      have := smaller d member
      omega
    have put (d : SizeClass) (taken : d.shelf = { c.shelf with count := c.stored - 1 })
        (room : d.free.length < d.limit) (size : d.size = back.capacity) :
        (Pool.release { pool with classes := before ++ d :: after, signal } back).shelves = pool.shelves := by
      rw [release_append rfl apart size, shelves, shelves, whole]
      simp only [List.map_append, List.map_cons, SizeClass.give_shelf taken stored room]
    exact put _ left room size

end Pool

end OscHost
