import OscHost.Schedule.Pool
import Mathlib.Data.List.TakeWhile

/-!
# The storage of a pool

What a pool stores are the free blocks of its classes and the refills on their way. A buffer that is
taken out of a pool was a block there before, one that is given back is a block there afterwards, and
a class that is full drops what it is given. Nothing else changes what a pool stores, but for the
refills that housekeeping sends.
-/

namespace OscHost

/-! ### Settings -/

namespace Settings

/-- What the sizes of valid settings have to do with each other. -/
structure Fits (s : Settings) : Prop where
  slots : s.queueCapacity ≤ UInt32.size - 2
  payload : s.maxPayload < UInt32.size
  ascending : s.poolClasses.Pairwise (· < ·)
  largest : ∃ size ∈ s.poolClasses, s.maxPayload ≤ size

/-- The size of the buffers for payloads of a length. -/
def sizeFor (s : Settings) (length : Nat) : Option Nat := s.poolClasses.find? fun size => length ≤ size

variable {s : Settings}

theorem pairwise_of_isAscending {sizes : List Nat} (ascending : isAscending sizes = true) :
    sizes.Pairwise (· < ·) := by
  fun_induction isAscending sizes with
  | case1 first second rest ih =>
    rw [Bool.and_eq_true, decide_eq_true_eq] at ascending
    obtain ⟨before, ascending⟩ := ascending
    have others := ih ascending
    refine List.pairwise_cons.mpr ⟨fun size member => ?_, others⟩
    rcases List.mem_cons.mp member with rfl | member
    · exact before
    · exact Nat.lt_trans before (List.rel_of_pairwise_cons others member)
  | case2 sizes short =>
    cases sizes with
    | nil => exact .nil
    | cons first rest =>
      cases rest with
      | nil => exact List.pairwise_singleton _ _
      | cons second rest => exact (short _ _ _ rfl).elim

theorem none_of_ite {p : Prop} [Decidable p] {error : SettingsError} {others : Option SettingsError}
    (passed : (if p then some error else others) = none) : ¬p ∧ others = none := by
  by_cases failed : p
  · rw [if_pos failed] at passed
    cases passed
  · rw [if_neg failed] at passed
    exact ⟨failed, passed⟩

theorem fits_of_valid (valid : s.error? = none) : s.Fits := by
  rw [error?] at valid
  obtain ⟨-, valid⟩ := none_of_ite valid
  obtain ⟨slots, valid⟩ := none_of_ite valid
  obtain ⟨-, valid⟩ := none_of_ite valid
  obtain ⟨payload, valid⟩ := none_of_ite valid
  obtain ⟨-, valid⟩ := none_of_ite valid
  obtain ⟨present, valid⟩ := none_of_ite valid
  obtain ⟨ascending, valid⟩ := none_of_ite valid
  obtain ⟨enough, -⟩ := none_of_ite valid
  rw [Bool.not_eq_true', Bool.not_eq_false] at ascending
  refine ⟨?_, ?_, pairwise_of_isAscending ascending, ?_⟩
  · exact Nat.le_of_lt_succ (Nat.lt_of_not_le slots)
  · exact Nat.lt_of_le_of_lt (Nat.le_of_not_lt payload) (by decide)
  · cases last : s.poolClasses.getLast? with
    | none =>
      rw [List.getLast?_eq_none_iff.mp last] at present
      exact (present rfl).elim
    | some size =>
      rw [last, Option.any_some, decide_eq_true_eq] at enough
      exact ⟨size, List.mem_of_getLast? last, Nat.le_of_not_lt enough⟩

theorem nodup_poolClasses (valid : s.error? = none) : s.poolClasses.Nodup :=
  (fits_of_valid valid).ascending.imp Nat.ne_of_lt

theorem Fits.sizeFor (fits : s.Fits) {length : Nat} (small : length ≤ s.maxPayload) :
    ∃ size, s.sizeFor length = some size := by
  obtain ⟨largest, member, enough⟩ := fits.largest
  refine Option.isSome_iff_exists.mp (List.find?_isSome.mpr ⟨largest, member, ?_⟩)
  exact decide_eq_true (Nat.le_trans small enough)

end Settings

/-! ### Classes -/

namespace SizeClass

def stored (c : SizeClass) : Nat := c.free.length + c.refills.length

/-- A class as it is made for this many blocks from the start. -/
structure Conforms (preallocate : Nat) (c : SizeClass) : Prop where
  blocks : ∀ block ∈ c.free ++ c.refills, block.size = c.size
  limit : c.limit = preallocate + max preallocate 1
  bound : c.free.length ≤ c.limit

variable {c : SizeClass} {preallocate : Nat}

theorem conforms_ofSize (size preallocate : Nat) : (ofSize size preallocate).Conforms preallocate := by
  refine ⟨fun block member => ?_, rfl, ?_⟩
  · rw [ofSize, List.append_nil] at member
    rw [List.eq_of_mem_replicate member, ofSize]
  · simp [ofSize]

theorem size_take (c : SizeClass) (low : Nat) : (c.take low).2.size = c.size := by
  rw [take]
  split <;> split <;> rfl

theorem absorb_stored (bound : c.free.length ≤ c.limit) : c.absorb.stored = c.stored := by
  simp only [stored, absorb, List.length_append, List.length_reverse, List.length_take,
    List.length_drop]
  omega

theorem Conforms.absorb (conforms : c.Conforms preallocate) : c.absorb.Conforms preallocate := by
  obtain ⟨blocks, limit, bound⟩ := conforms
  refine ⟨fun block member => ?_, limit, ?_⟩
  · have member : block ∈ c.free ++ c.refills := by
      rw [SizeClass.absorb, List.mem_append, List.mem_append, List.mem_reverse] at member
      rcases member with (taken | free) | left
      · exact List.mem_append_right _ (List.mem_of_mem_take taken)
      · exact List.mem_append_left _ free
      · exact List.mem_append_right _ (List.mem_of_mem_drop left)
    exact blocks block member
  · simp only [SizeClass.absorb, List.length_append, List.length_reverse, List.length_take]
    omega

theorem Conforms.take (conforms : c.Conforms preallocate) (low : Nat) :
    (c.take low).2.Conforms preallocate ∧
      (∀ block ∈ (c.take low).1, block.size = c.size) ∧
      (c.take low).2.stored + (c.take low).1.toList.length = c.stored := by
  rw [SizeClass.take]
  obtain ⟨b, looked, size, stored, ready⟩ : ∃ b : SizeClass,
      (if c.free.length ≤ low then c.absorb else c) = b ∧ b.size = c.size ∧ b.stored = c.stored ∧
        b.Conforms preallocate := by
    split
    · exact ⟨_, rfl, rfl, absorb_stored conforms.bound, conforms.absorb⟩
    · exact ⟨_, rfl, rfl, rfl, conforms⟩
  rw [looked]
  obtain ⟨blocks, limit, bound⟩ := ready
  rw [← stored, ← size]
  cases free : b.free with
  | nil => exact ⟨⟨blocks, limit, bound⟩, nofun, rfl⟩
  | cons block rest =>
    rw [free] at blocks bound
    refine ⟨⟨fun other member => blocks other (List.mem_cons_of_mem _ member), limit,
      Nat.le_of_succ_le bound⟩, fun other taken => ?_, ?_⟩
    · cases taken
      exact blocks block List.mem_cons_self
    · simp only [SizeClass.stored, free, List.length_cons, Option.toList_some, List.length_nil]
      omega

theorem Conforms.take_some (conforms : c.Conforms preallocate) (stored : 0 < c.stored) (low : Nat) :
    ∃ block, (c.take low).1 = some block := by
  obtain ⟨-, limit, -⟩ := conforms
  have ready : (if c.free.length ≤ low then c.absorb else c).free ≠ [] := by
    rw [SizeClass.stored] at stored
    split
    · refine List.ne_nil_of_length_pos ?_
      simp only [SizeClass.absorb, List.length_append, List.length_reverse, List.length_take]
      omega
    · exact List.ne_nil_of_length_pos (by omega)
  obtain ⟨block, rest, free⟩ := List.exists_cons_of_ne_nil ready
  exact ⟨block, by simp only [SizeClass.take, free]⟩

theorem Conforms.take_room (conforms : c.Conforms preallocate) {low : Nat} {block : Block}
    (taken : (c.take low).1 = some block) : (c.take low).2.free.length < (c.take low).2.limit := by
  rw [SizeClass.take] at taken ⊢
  obtain ⟨b, looked, bound⟩ : ∃ b : SizeClass,
      (if c.free.length ≤ low then c.absorb else c) = b ∧ b.free.length ≤ b.limit := by
    split
    · exact ⟨_, rfl, conforms.absorb.bound⟩
    · exact ⟨_, rfl, conforms.bound⟩
  rw [looked] at taken ⊢
  cases free : b.free with
  | nil =>
    simp only [free] at taken
    cases taken
  | cons first rest =>
    rw [free] at bound
    exact bound

theorem Conforms.give (conforms : c.Conforms preallocate) (block : Block) (size : block.size = c.size)
    (room : c.free.length < c.limit) :
    (c.give block).Conforms preallocate ∧ (c.give block).stored = c.stored + 1 := by
  obtain ⟨blocks, limit, bound⟩ := conforms
  rw [SizeClass.give, if_pos room]
  refine ⟨⟨fun other member => ?_, limit, room⟩, ?_⟩
  · rcases List.mem_cons.mp member with rfl | member
    · exact size
    · exact blocks other member
  · simp only [stored, List.length_cons]
    omega

theorem give_full (full : c.limit ≤ c.free.length) (block : Block) : c.give block = c := by
  rw [give, if_neg (Nat.not_lt.mpr full)]

theorem Conforms.topUp (conforms : c.Conforms preallocate) (batch : Nat) :
    (c.topUp batch).2.Conforms preallocate ∧ (c.topUp batch).2.size = c.size ∧
      (c.topUp batch).2.stored = c.stored + (c.topUp batch).1.getD 0 := by
  rw [SizeClass.topUp]
  split
  · obtain ⟨blocks, limit, bound⟩ := conforms
    refine ⟨⟨fun block member => ?_, limit, bound⟩, rfl, ?_⟩
    · rw [← List.append_assoc] at member
      rcases List.mem_append.mp member with member | member
      · exact blocks block member
      · rw [List.eq_of_mem_replicate member]
    · simp only [stored, List.length_append, List.length_replicate, Option.getD_some]
      omega
  · exact ⟨conforms, rfl, rfl⟩

end SizeClass

namespace Buffer

/-- How many of the buffers are of a size. -/
def count (size : Nat) (buffers : List Buffer) : Nat := buffers.countP (·.capacity == size)

theorem length_fill (buffer : Buffer) (bytes : List UInt8) :
    (buffer.fill bytes).bytes.length = buffer.bytes.length := by
  rw [fill, length, List.length_append, List.length_take, List.length_drop]
  omega

end Buffer

/-! ### Pools -/

namespace Pool

/-- What a pool stores in blocks of a size. -/
def stored (pool : Pool) (size : Nat) : Nat :=
  total ((pool.classes.filter (·.size == size)).map SizeClass.stored)

/-- A pool as it is made with these settings. -/
structure Conforms (settings : Settings) (pool : Pool) : Prop where
  sizes : pool.classes.map (·.size) = settings.poolClasses
  maxPayload : pool.maxPayload = settings.maxPayload
  classes : ∀ c ∈ pool.classes, c.Conforms settings.poolPreallocate

/-- The class for buffers of a size can take no more. -/
def Full (pool : Pool) (size : Nat) : Prop :=
  ∃ c, pool.classes.find? (·.size == size) = some c ∧ c.free.length = c.limit

variable {settings : Settings} {pool : Pool} {before after : List SizeClass} {c d : SizeClass}

theorem conforms_ofSettings (settings : Settings) : (ofSettings settings).Conforms settings := by
  refine ⟨?_, rfl, fun c member => ?_⟩
  · rw [ofSettings, List.map_map]
    exact List.map_id _
  · obtain ⟨size, -, rfl⟩ := List.mem_map.mp member
    exact SizeClass.conforms_ofSize size _

theorem splitAtFirst_cases (p : SizeClass → Bool) (classes : List SizeClass) :
    (classes.find? p = none ∧ ∃ before, splitAtFirst p classes = (before, [])) ∨
      ∃ before c after, splitAtFirst p classes = (before, c :: after) ∧
        classes = before ++ c :: after ∧ classes.find? p = some c ∧ p c = true := by
  have whole : classes.takeWhile (!p ·) ++ classes.dropWhile (!p ·) = classes :=
    List.takeWhile_append_dropWhile
  have first := List.find?_eq_head?_dropWhile_not p classes
  rw [splitAtFirst]
  cases rest : classes.dropWhile (!p ·) with
  | nil =>
    rw [rest] at first
    exact .inl ⟨first, _, rfl⟩
  | cons c after =>
    rw [rest] at first whole
    exact .inr ⟨_, c, after, rfl, whole.symm, first, List.find?_some first⟩

theorem splitAtFirst_front {p : SizeClass → Bool} {classes : List SizeClass}
    (split : splitAtFirst p classes = (before, after)) (member : c ∈ before) : p c = false := by
  obtain rfl := (Prod.mk.inj split).1
  simpa using List.mem_takeWhile_imp member

theorem Conforms.at (conforms : pool.Conforms settings) (split : pool.classes = before ++ c :: after) :
    c.Conforms settings.poolPreallocate :=
  conforms.classes c (by simp [split])

theorem Conforms.replace (conforms : pool.Conforms settings) (split : pool.classes = before ++ c :: after)
    (size : d.size = c.size) (sound : d.Conforms settings.poolPreallocate) (signal : Signal) :
    Conforms settings { pool with classes := before ++ d :: after, signal } := by
  obtain ⟨sizes, maxPayload, classes⟩ := conforms
  rw [split] at sizes classes
  refine ⟨?_, maxPayload, fun other member => ?_⟩
  · rw [← sizes, List.map_append, List.map_append, List.map_cons, List.map_cons, size]
  · rcases List.mem_append.mp member with member | member
    · exact classes other (List.mem_append_left _ member)
    · rcases List.mem_cons.mp member with rfl | member
      · exact sound
      · exact classes other (List.mem_append_right _ (List.mem_cons_of_mem _ member))

theorem stored_replace (split : pool.classes = before ++ c :: after) (size : d.size = c.size)
    (signal : Signal) (wanted : Nat) :
    ∃ rest, pool.stored wanted = rest + (if c.size = wanted then c.stored else 0) ∧
      stored { pool with classes := before ++ d :: after, signal } wanted =
        rest + if c.size = wanted then d.stored else 0 := by
  refine ⟨total ((before.filter (·.size == wanted)).map SizeClass.stored) +
    total ((after.filter (·.size == wanted)).map SizeClass.stored), ?_, ?_⟩
  all_goals
    rw [stored]
    simp only [split, List.filter_append, List.filter_cons, size, List.map_append, total_append, beq_iff_eq]
    split
    · rw [List.map_cons, total]
      omega
    · omega

theorem splitAtFirst_append {p : SizeClass → Bool} (pass : ∀ d ∈ before, p d = false) (stop : p c = true) :
    splitAtFirst p (before ++ c :: after) = (before, c :: after) := by
  have pass : ∀ d ∈ before, (!p d) = true := by
    intro d member
    rw [pass d member]
    rfl
  unfold splitAtFirst
  rw [List.takeWhile_append_of_pos pass, List.dropWhile_append_of_pos pass]
  simp [stop]

/-- A payload that is too long, or for which no class is large enough, is refused. Any other is the business
of the first class that is large enough. -/
theorem alloc_cases (pool : Pool) (length : Nat) :
    ((pool.maxPayload < length ∨ ∀ c ∈ pool.classes, c.size < length) ∧
        pool.alloc length = (none, pool)) ∨
      ∃ before c after requested signal, pool.classes = before ++ c :: after ∧
        (length ≤ pool.maxPayload ∧ (∀ d ∈ before, d.size < length) ∧ length ≤ c.size) ∧
        pool.alloc length =
          ((c.take pool.lowWatermark).1.map fun block => ⟨zeros length, block.size⟩,
            { pool with
              classes := before ++ { (c.take pool.lowWatermark).2 with requested } :: after
              signal }) := by
  unfold alloc
  split
  · rename_i long
    exact .inl ⟨.inl long, rfl⟩
  · rename_i short
    rcases splitAtFirst_cases (fun c => decide (length ≤ c.size)) pool.classes with
      ⟨none, before, split⟩ | ⟨before, c, after, split, whole, -, large⟩
    · rw [split]
      refine .inl ⟨.inr ?_, rfl⟩
      intro c member
      exact Nat.lt_of_not_le fun large => List.find?_eq_none.mp none c member (decide_eq_true large)
    · rw [split]
      refine .inr ⟨before, c, after, _, _, whole, ⟨Nat.le_of_not_lt short, ?_, of_decide_eq_true large⟩, rfl⟩
      intro d member
      exact Nat.lt_of_not_le (of_decide_eq_false (splitAtFirst_front split member))

theorem bytes_alloc {length : Nat} {buffer : Buffer} {rest : Pool}
    (given : pool.alloc length = (some buffer, rest)) : buffer.bytes = zeros length := by
  rcases alloc_cases pool length with ⟨-, same⟩ | ⟨_, _, _, _, _, _, -, same⟩
  · cases same.symm.trans given
  · obtain ⟨block, -, rfl⟩ := Option.map_eq_some_iff.mp (Prod.mk.inj (same.symm.trans given)).1
    rfl

theorem maxPayload_alloc (pool : Pool) (length : Nat) :
    (pool.alloc length).2.maxPayload = pool.maxPayload := by
  rcases alloc_cases pool length with ⟨-, same⟩ | ⟨_, _, _, _, _, _, -, same⟩ <;> rw [same]

theorem maxPayload_release (pool : Pool) (buffer : Buffer) :
    (pool.release buffer).maxPayload = pool.maxPayload := by
  rw [release]
  split <;> rfl

theorem maxPayload_releaseAll (pool : Pool) (buffers : List Buffer) :
    (pool.releaseAll buffers).maxPayload = pool.maxPayload := by
  induction buffers generalizing pool with
  | nil => rfl
  | cons buffer buffers ih => exact (ih _).trans (pool.maxPayload_release buffer)

theorem alloc_within {length : Nat} {buffer : Buffer} {rest : Pool}
    (given : pool.alloc length = (some buffer, rest)) : buffer.bytes.length ≤ pool.maxPayload := by
  rw [bytes_alloc given, length_zeros]
  rw [alloc] at given
  split at given
  · cases given
  · rename_i short
    exact Nat.le_of_not_lt short

/-- A buffer that the pool gives out was stored before; where it gives out none, nothing was taken. -/
theorem Conforms.alloc (conforms : pool.Conforms settings) (length : Nat) :
    (pool.alloc length).2.Conforms settings ∧ ∀ size,
       (pool.alloc length).2.stored size + Buffer.count size (pool.alloc length).1.toList =
        pool.stored size := by
  rcases alloc_cases pool length with ⟨-, same⟩ | ⟨before, c, after, requested, signal, whole, -, same⟩
  · rw [same]
    exact ⟨conforms, fun _ => rfl⟩
  · rw [same]
    obtain ⟨sound, sizes, balance⟩ := (conforms.at whole).take pool.lowWatermark
    have size := c.size_take pool.lowWatermark
    generalize c.take pool.lowWatermark = taken at sound sizes balance size
    obtain ⟨block, d⟩ := taken
    refine ⟨?_, fun wanted => ?_⟩
    · exact conforms.replace whole (d := { d with requested }) size
        ⟨sound.blocks, sound.limit, sound.bound⟩ signal
    · obtain ⟨rest, start, left⟩ := stored_replace whole (d := { d with requested }) size signal wanted
      have same : SizeClass.stored { d with requested } = d.stored := rfl
      have counted : Buffer.count wanted (block.map fun block => ⟨zeros length, block.size⟩).toList =
          if c.size = wanted then block.toList.length else 0 := by
        cases block with
        | none => simp [Buffer.count]
        | some block => simp [Buffer.count, sizes block rfl]
      dsimp only at balance ⊢
      rw [start, left, same, counted, ← balance]
      split <;> omega

theorem Conforms.stored_eq (conforms : pool.Conforms settings) (fits : settings.Fits)
    (member : c ∈ pool.classes) : pool.stored c.size = c.stored := by
  have distinct : (pool.classes.map (·.size)).Pairwise (· < ·) := by
    rw [conforms.sizes]
    exact fits.ascending
  rw [List.pairwise_map] at distinct
  have alone : pool.classes.filter (·.size == c.size) = [c] := by
    obtain ⟨before, after, split⟩ := List.append_of_mem member
    rw [split] at distinct ⊢
    obtain ⟨-, behind, ahead⟩ := List.pairwise_append.mp distinct
    have smaller : ∀ d ∈ before, ¬(d.size == c.size) := fun d member same =>
      Nat.ne_of_lt (ahead d member c List.mem_cons_self) (beq_iff_eq.mp same)
    have larger : ∀ d ∈ after, ¬(d.size == c.size) := fun d member same =>
      Nat.ne_of_gt (List.rel_of_pairwise_cons behind member) (beq_iff_eq.mp same)
    rw [List.filter_append, List.filter_cons, List.filter_eq_nil_iff.mpr smaller,
      List.filter_eq_nil_iff.mpr larger, if_pos BEq.rfl, List.nil_append]
  rw [stored, alone]
  rfl

/-- The class for payloads of a length has the size that the settings name. -/
theorem Conforms.sizeFor_eq (conforms : pool.Conforms settings) (length : Nat) :
    (pool.classes.find? fun c => length ≤ c.size).map (·.size) = settings.sizeFor length := by
  rw [Settings.sizeFor, ← conforms.sizes, List.find?_map]
  rfl

theorem Conforms.supplies (conforms : pool.Conforms settings) (fits : settings.Fits) {length size : Nat}
    (small : length ≤ settings.maxPayload) (chosen : settings.sizeFor length = some size)
    (stored : 0 < pool.stored size) :
    ∃ buffer rest, pool.alloc length = (some buffer, rest) ∧ buffer.capacity = size := by
  obtain ⟨c, first, rfl⟩ := Option.map_eq_some_iff.mp ((conforms.sizeFor_eq length).trans chosen)
  have member := List.mem_of_find?_eq_some first
  rw [conforms.stored_eq fits member] at stored
  rw [Pool.alloc, if_neg (by rw [conforms.maxPayload]; omega)]
  rcases splitAtFirst_cases (fun c => decide (length ≤ c.size)) pool.classes with
    ⟨absent, -⟩ | ⟨before, d, after, split, whole, same, -⟩
  · cases absent.symm.trans first
  · cases same.symm.trans first
    obtain ⟨block, taken⟩ := (conforms.classes c member).take_some stored pool.lowWatermark
    have size := ((conforms.classes c member).take pool.lowWatermark).2.1 block taken
    rw [split]
    dsimp only
    rw [taken]
    exact ⟨_, _, rfl, size⟩

theorem not_full (conforms : pool.Conforms settings) {size : Nat} (room : ¬pool.Full size)
    (found : pool.classes.find? (·.size == size) = some c) : c.free.length < c.limit := by
  have bound := (conforms.classes c (List.mem_of_find?_eq_some found)).bound
  exact Nat.lt_of_le_of_ne bound fun full => room ⟨c, found, full⟩

/-- A buffer that the pool takes back is stored, if it came from there and its class is not full. -/
theorem Conforms.release (conforms : pool.Conforms settings) (buffer : Buffer)
    (room : ¬pool.Full buffer.capacity) :
    (pool.release buffer).Conforms settings ∧
      ∀ size ∈ settings.poolClasses,
        (pool.release buffer).stored size = pool.stored size + Buffer.count size [buffer] := by
  rw [Pool.release]
  rcases splitAtFirst_cases (·.size == buffer.capacity) pool.classes with
    ⟨absent, before, split⟩ | ⟨before, c, after, split, whole, found, fits⟩
  · rw [split]
    refine ⟨conforms, fun size known => ?_⟩
    have other : buffer.capacity ≠ size := by
      rintro rfl
      rw [← conforms.sizes] at known
      obtain ⟨c, member, same⟩ := List.mem_map.mp known
      exact List.find?_eq_none.mp absent c member (beq_iff_eq.mpr same)
    simp [Buffer.count, other]
  · rw [split]
    dsimp only
    rw [beq_iff_eq] at fits
    obtain ⟨sound, gained⟩ := (conforms.at whole).give ⟨buffer.capacity⟩ fits.symm
      (not_full conforms room found)
    have size : (c.give ⟨buffer.capacity⟩).size = c.size := by
      rw [SizeClass.give]
      split <;> rfl
    refine ⟨conforms.replace whole size sound pool.signal, fun wanted _ => ?_⟩
    obtain ⟨rest, start, left⟩ := stored_replace whole size pool.signal wanted
    have counted : Buffer.count wanted [buffer] = if c.size = wanted then 1 else 0 := by
      simp [Buffer.count, fits]
    rw [start, left, gained, counted]
    split <;> omega

theorem release_full (buffer : Buffer) (full : pool.Full buffer.capacity) :
    pool.release buffer = pool := by
  obtain ⟨c, found, limit⟩ := full
  rw [release]
  rcases splitAtFirst_cases (·.size == buffer.capacity) pool.classes with
    ⟨absent, before, split⟩ | ⟨before, d, after, split, whole, found', -⟩
  · rw [split]
  · rw [split]
    dsimp only
    cases found'.symm.trans found
    rw [SizeClass.give_full (Nat.le_of_eq limit.symm), ← whole]

theorem Conforms.stored_unknown (conforms : pool.Conforms settings) {size : Nat}
    (unknown : size ∉ settings.poolClasses) : pool.stored size = 0 := by
  have none : pool.classes.filter (·.size == size) = [] := by
    refine List.filter_eq_nil_iff.mpr fun c member same => unknown ?_
    rw [← conforms.sizes, ← beq_iff_eq.mp same]
    exact List.mem_map_of_mem member
  rw [stored, none]
  rfl

/-- The class that has supplied a buffer can take it back. -/
theorem Conforms.alloc_room (conforms : pool.Conforms settings) {length : Nat} {buffer : Buffer} {rest : Pool}
    (given : pool.alloc length = (some buffer, rest)) : ¬rest.Full buffer.capacity := by
  rcases alloc_cases pool length with
    ⟨-, same⟩ | ⟨before, c, after, requested, signal, whole, ⟨-, shorter, long⟩, same⟩
  · cases same.symm.trans given
  · obtain ⟨supplied, rfl⟩ := Prod.mk.inj (same.symm.trans given)
    obtain ⟨block, taken, rfl⟩ := Option.map_eq_some_iff.mp supplied
    have room := (conforms.at whole).take_room taken
    have size := ((conforms.at whole).take pool.lowWatermark).2.1 block taken
    rintro ⟨d, found, full⟩
    have absent : before.find? (·.size == block.size) = none := by
      refine List.find?_eq_none.mpr fun d member same => ?_
      have less := shorter d member
      rw [beq_iff_eq.mp same, size] at less
      omega
    rw [List.find?_append, absent, Option.none_or, List.find?_cons_of_pos] at found
    · cases found
      exact Nat.ne_of_lt room full
    · exact beq_iff_eq.mpr ((c.size_take pool.lowWatermark).trans size.symm)

/-- A buffer that is given back at once leaves the pool with what it stored before. -/
theorem Conforms.alloc_release (conforms : pool.Conforms settings) {length : Nat} {buffer back : Buffer}
    {rest : Pool} (given : pool.alloc length = (some buffer, rest)) (same : back.capacity = buffer.capacity)
    (size : Nat) : (rest.release back).stored size = pool.stored size := by
  obtain ⟨kept, balance⟩ := conforms.alloc length
  rw [given] at kept balance
  have room : ¬rest.Full back.capacity := by
    rw [same]
    exact conforms.alloc_room given
  obtain ⟨released, gained⟩ := kept.release back room
  by_cases known : size ∈ settings.poolClasses
  · rw [gained size known, ← balance size]
    simp only [Buffer.count, Option.toList_some, List.countP_singleton, same]
  · rw [released.stored_unknown known, conforms.stored_unknown known]

/-! ### Refills -/

/-- How many of the refills are of a size. -/
def shippedOf (size : Nat) (sent : List TopUp) : Nat := shipped (sent.filter (·.size == size))

/-- A pass sends as many refills of each size as it reports. -/
theorem Conforms.topUp (conforms : pool.Conforms settings) :
    pool.topUp.2.Conforms settings ∧
      ∀ size, pool.topUp.2.stored size = pool.stored size + shippedOf size pool.topUp.1 := by
  have each (c : SizeClass) (member : c ∈ pool.classes) := (conforms.classes c member).topUp pool.batch
  obtain ⟨sizes, maxPayload, -⟩ := conforms
  refine ⟨⟨?_, maxPayload, fun d member => ?_⟩, fun size => ?_⟩
  · rw [← sizes]
    simp only [Pool.topUp, List.map_map]
    exact List.map_congr_left fun c member => (each c member).2.1
  · simp only [Pool.topUp, List.map_map] at member
    obtain ⟨c, present, rfl⟩ := List.mem_map.mp member
    exact (each c present).1
  · simp only [Pool.topUp, stored, shippedOf, shipped, List.map_map]
    generalize pool.classes = classes at each
    induction classes with
    | nil => rfl
    | cons c classes ih =>
      obtain ⟨first, others⟩ := List.forall_mem_cons.mp each
      obtain ⟨-, same, gained⟩ := first
      have ih := ih others
      cases answer : (c.topUp pool.batch).1 with
      | none =>
        rw [answer] at gained
        simp only [List.map_cons, List.filter_cons, List.filterMap_cons, Function.comp_apply, same, answer,
          Option.map_none]
        split
        · rw [List.map_cons, List.map_cons, total, total, gained, Option.getD_none, ih]
          omega
        · exact ih
      | some count =>
        rw [answer] at gained
        simp only [List.map_cons, List.filter_cons, List.filterMap_cons, Function.comp_apply, same, answer,
          Option.map_some]
        split
        · rw [List.map_cons, List.map_cons, List.map_cons, total, total, total, gained, Option.getD_some, ih]
          dsimp only
          omega
        · exact ih

end Pool

end OscHost
