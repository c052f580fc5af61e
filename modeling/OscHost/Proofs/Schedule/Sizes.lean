import OscHost.Proofs.Schedule.Replenishing
import Mathlib.Order.Bounds.Defs

/-!
# Sizes of buffers

However a pool is used, each class stores blocks of its own size only, and never more of them than it was made
for. So a payload gets a buffer of the smallest class that can hold it, and no payload is ever longer than its
buffer, whether that came from the pool or from elsewhere (`run_fits`).
-/

namespace OscHost

namespace Buffer

/-- The payload is not longer than the storage behind it. -/
def Fits (buffer : Buffer) : Prop := buffer.length ≤ buffer.capacity

theorem fits_ofBytes (bytes : List UInt8) : (ofBytes bytes).Fits := Nat.le_refl _

theorem Fits.truncate {buffer : Buffer} (fits : buffer.Fits) (length : Nat) : (buffer.truncate length).Fits := by
  unfold Fits Buffer.length at *
  unfold Buffer.truncate
  rw [List.length_take]
  exact Nat.le_trans (Nat.min_le_right _ _) fits

end Buffer

namespace SizeClass

variable {c : SizeClass} {preallocate : Nat}

theorem Conforms.give_bound (conforms : c.Conforms preallocate) (block : Block) :
    (c.give block).free.length ≤ c.limit := by
  unfold SizeClass.give
  split
  · rename_i room
    exact room
  · exact conforms.bound

theorem Conforms.take_isSome (conforms : c.Conforms preallocate) (low : Nat) :
    (c.take low).1.isSome ↔ 0 < c.stored := by
  constructor
  · intro given
    obtain ⟨block, taken⟩ := Option.isSome_iff_exists.mp given
    obtain ⟨-, -, balance⟩ := conforms.take low
    rw [taken, Option.toList_some, List.length_singleton] at balance
    omega
  · intro stored
    obtain ⟨block, taken⟩ := conforms.take_some stored low
    rw [taken, Option.isSome_some]

end SizeClass

namespace Pool

variable {settings : Settings} {pool rest : Pool} {length : Nat} {buffer : Buffer}

theorem Conforms.alloc_least (conforms : pool.Conforms settings)
    (ascending : settings.poolClasses.Pairwise (· < ·)) (given : pool.alloc length = (some buffer, rest)) :
    buffer.length = length ∧
      IsLeast {size | size ∈ settings.poolClasses ∧ length ≤ size} buffer.capacity := by
  have payload : buffer.length = length := by
    unfold Buffer.length
    rw [bytes_alloc given, length_zeros]
  refine ⟨payload, ?_⟩
  rcases alloc_cases pool length with
    ⟨-, refused⟩ | ⟨before, c, after, requested, signal, whole, ⟨-, shorter, long⟩, served⟩
  · cases refused.symm.trans given
  · obtain ⟨supplied, -⟩ := Prod.mk.inj (served.symm.trans given)
    obtain ⟨block, taken, rfl⟩ := Option.map_eq_some_iff.mp supplied
    obtain ⟨-, sizes, -⟩ := (conforms.at whole).take pool.lowWatermark
    have size : block.size = c.size := sizes block taken
    have classes : settings.poolClasses = before.map (·.size) ++ c.size :: after.map (·.size) := by
      rw [← conforms.sizes, whole, List.map_append, List.map_cons]
    rw [classes] at ascending ⊢
    dsimp only
    rw [size]
    constructor
    · exact ⟨by simp, long⟩
    · rintro other ⟨known, enough⟩
      rcases List.mem_append.mp known with front | back
      · obtain ⟨d, member, rfl⟩ := List.mem_map.mp front
        exact absurd enough (Nat.not_le.mpr (shorter d member))
      · rcases List.mem_cons.mp back with rfl | back
        · exact Nat.le_refl _
        · have behind := (List.pairwise_append.mp ascending).2.1
          exact Nat.le_of_lt (List.rel_of_pairwise_cons behind back)

/-- A payload gets a buffer if it is not too long and the first class that can hold it has a block left. -/
theorem Conforms.alloc_isSome (conforms : pool.Conforms settings) (length : Nat) :
    (pool.alloc length).1.isSome ↔ length ≤ settings.maxPayload ∧
      ∃ c, pool.classes.find? (fun c => length ≤ c.size) = some c ∧ 0 < c.stored := by
  by_cases small : length ≤ pool.maxPayload
  · cases serving : pool.classes.find? (fun c => length ≤ c.size) with
    | none => simp [alloc_unserved (.inr serving)]
    | some c =>
      obtain ⟨before, behind, starved, whole, -, -, served⟩ := alloc_serving small serving
      have stored := (conforms.at whole).take_isSome pool.lowWatermark
      rw [conforms.maxPayload] at small
      rw [served, Option.isSome_map, stored]
      simp [small]
  · have long : ¬length ≤ settings.maxPayload := by rwa [conforms.maxPayload] at small
    simp [alloc_unserved (.inl (Nat.lt_of_not_le small)), long]

end Pool

namespace Lending

variable {settings : Settings} {lending : Lending}

theorem serve_fits (conforms : lending.pool.Conforms settings) (ascending : settings.poolClasses.Pairwise (· < ·))
    {use : Pool.Use} (foreign : ∀ buffer, use = .adopt buffer → buffer.Fits)
    (fits : ∀ buffer ∈ lending.held, buffer.Fits) : ∀ buffer ∈ (lending.serve use).held, buffer.Fits := by
  cases use with
  | alloc length =>
    intro buffer member
    have member : buffer ∈ lending.held ++ (lending.pool.alloc length).1.toList := member
    rcases List.mem_append.mp member with held | given
    · exact fits buffer held
    · have given : (lending.pool.alloc length).1 = some buffer := Option.mem_toList.mp given
      have served : lending.pool.alloc length = (some buffer, (lending.pool.alloc length).2) := by rw [← given]
      obtain ⟨payload, ⟨-, large⟩, -⟩ := conforms.alloc_least ascending served
      unfold Buffer.Fits
      omega
  | adopt buffer => exact List.forall_mem_append.mpr ⟨fits, List.forall_mem_singleton.mpr (foreign buffer rfl)⟩
  | truncate index length =>
    intro buffer member
    obtain ⟨place, there⟩ := List.mem_iff_getElem?.mp member
    have there : (lending.held.modify index (·.truncate length))[place]? = some buffer := there
    rw [List.getElem?_modify, Option.map_eq_map, Option.map_eq_some_iff] at there
    obtain ⟨old, present, rfl⟩ := there
    have old := fits old (List.mem_of_getElem? present)
    split
    · exact old.truncate length
    · exact old
  | release index =>
    rw [serve]
    split
    · intro buffer member
      exact fits buffer ((List.eraseIdx_sublist lending.held index).subset member)
    · exact fits
  | topUp acknowledged => exact fits

theorem run_kept (supplied : lending.pool.Supplied settings) (ascending : settings.poolClasses.Pairwise (· < ·))
    (fits : ∀ buffer ∈ lending.held, buffer.Fits) {uses : List Pool.Use}
    (foreign : ∀ buffer, .adopt buffer ∈ uses → buffer.Fits) :
    ∀ buffer ∈ (lending.run uses).held, buffer.Fits := by
  induction uses generalizing lending with
  | nil => exact fits
  | cons use uses ih =>
    refine ih (serve_supplied supplied use) (serve_fits supplied.conforms ascending ?_ fits) ?_
    · rintro buffer rfl
      exact foreign buffer List.mem_cons_self
    · intro buffer member
      exact foreign buffer (List.mem_cons_of_mem _ member)

/-- At any time in any run, a payload that gets a buffer gets one of the smallest class that can hold it, and it
gets one if that class has a block left. Every block of a class is of its size, and neither a buffer that comes
back nor the refills that are taken in make its free list longer than it was made for. No payload that is in
use is longer than its buffer. -/
theorem run_fits (settings : Settings) (ascending : isAscending settings.poolClasses = true)
    (uses : List Pool.Use)
    (foreign : ∀ buffer, .adopt buffer ∈ uses → ∃ bytes length, buffer = (Buffer.ofBytes bytes).truncate length) :
    let lending := run { pool := .ofSettings settings } uses
    let pool := lending.pool
    (∀ length buffer rest, pool.alloc length = (some buffer, rest) →
      buffer.length = length ∧
        IsLeast {size | size ∈ settings.poolClasses ∧ length ≤ size} buffer.capacity) ∧
      (∀ length, (pool.alloc length).1.isSome ↔ length ≤ settings.maxPayload ∧
        ∃ c, pool.classes.find? (fun c => length ≤ c.size) = some c ∧ 0 < c.free.length + c.refills.length) ∧
      pool.classes.map (·.size) = settings.poolClasses ∧
      (∀ c ∈ pool.classes, (∀ block ∈ c.free ++ c.refills, block.size = c.size) ∧
        let limit := settings.poolPreallocate + max settings.poolPreallocate 1
        c.free.length ≤ limit ∧ c.absorb.free.length ≤ limit ∧
          ∀ block, (c.give block).free.length ≤ limit) ∧
      ∀ buffer ∈ lending.held, buffer.length ≤ buffer.capacity := by
  intro lending pool
  have ascending := Settings.pairwise_of_isAscending ascending
  have start := Pool.supplied_ofSettings settings
  have conforms : pool.Conforms settings := (run_supplied start uses).conforms
  refine ⟨?_, conforms.alloc_isSome, conforms.sizes, ?_, ?_⟩
  · intro length buffer rest given
    exact conforms.alloc_least ascending given
  · intro c member
    have own := conforms.classes c member
    refine ⟨own.blocks, ?_⟩
    dsimp only
    rw [← own.limit]
    exact ⟨own.bound, own.absorb.bound, own.give_bound⟩
  · refine run_kept start ascending (List.forall_mem_nil _) ?_
    intro buffer adopted
    obtain ⟨bytes, length, rfl⟩ := foreign buffer adopted
    exact (Buffer.fits_ofBytes bytes).truncate length

/-- A buffer from elsewhere, shortened, joins the class of its size, which then has two blocks free and is
full. -/
theorem run_fits_foreign :
    let settings : Settings :=
      { maxPayload := 8, poolClasses := [4, 8], poolPreallocate := 1, poolLowWatermark := 0 }
    let uses : List Pool.Use :=
      [.alloc 3, .adopt ((Buffer.ofBytes [1, 2, 3, 4, 5, 6, 7, 8]).truncate 6), .truncate 1 5, .release 1,
        .truncate 0 2, .topUp true]
    let lending := run { pool := .ofSettings settings } uses
    isAscending settings.poolClasses = true ∧
      (∀ buffer, .adopt buffer ∈ uses → ∃ bytes length, buffer = (Buffer.ofBytes bytes).truncate length) ∧
      lending.pool.available 5 = 2 ∧ lending.held = [⟨[0, 0], 4⟩] ∧
      (∃ buffer rest, lending.pool.alloc 5 = (some buffer, rest) ∧ buffer.length = 5 ∧
        IsLeast {size | size ∈ settings.poolClasses ∧ 5 ≤ size} buffer.capacity) ∧
      ∀ buffer ∈ lending.held, buffer.length ≤ buffer.capacity := by
  intro settings uses lending
  have ascending : isAscending settings.poolClasses = true := by decide
  have foreign : ∀ buffer, .adopt buffer ∈ uses →
      ∃ bytes length, buffer = (Buffer.ofBytes bytes).truncate length := by
    intro buffer member
    simp only [uses, List.mem_cons, List.not_mem_nil, reduceCtorEq, false_or, or_false,
      Pool.Use.adopt.injEq] at member
    exact ⟨[1, 2, 3, 4, 5, 6, 7, 8], 6, member⟩
  obtain ⟨least, served, -, -, fits⟩ := run_fits settings ascending uses foreign
  have given : (lending.pool.alloc 5).1 = some ⟨[0, 0, 0, 0, 0], 8⟩ := by decide +kernel
  have whole : lending.pool.alloc 5 = (some ⟨[0, 0, 0, 0, 0], 8⟩, (lending.pool.alloc 5).2) := by rw [← given]
  exact ⟨ascending, foreign, by decide +kernel, by decide +kernel, ⟨_, _, whole, least 5 _ _ whole⟩, fits⟩

end Lending

end OscHost
