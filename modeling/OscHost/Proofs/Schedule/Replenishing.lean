import OscHost.Proofs.Schedule.Storage
import Mathlib.Data.List.Forall2

/-!
# Replenishing

A class that runs low asks for more, and its request stands until housekeeping answers it: requests and
buffers that come back change a class only in ways that leave its request standing. While a request
stands the signal of the pool is pending, and an answer leaves a refill on its way. So a class that was
found exhausted waits for the next answer, and has something to give after it.
-/

namespace OscHost

namespace Settings

variable {s : Settings}

theorem watermark_of_valid (valid : s.error? = none) : s.poolLowWatermark ≤ s.poolPreallocate := by
  unfold error? at valid
  iterate 8 obtain ⟨-, valid⟩ := none_of_ite valid
  obtain ⟨low, -⟩ := none_of_ite valid
  exact Nat.le_of_not_lt low

end Settings

/-! ### Classes -/

namespace SizeClass

/-- What a class keeps from one answer of housekeeping to the next. -/
structure Persists (c d : SizeClass) : Prop where
  size : d.size = c.size
  ring : d.refillLimit = c.refillLimit
  request : c.requested = true → d.requested = true

variable {c : SizeClass} {preallocate low batch : Nat}

theorem Persists.refl (c : SizeClass) : c.Persists c := ⟨rfl, rfl, id⟩

theorem requested_take (c : SizeClass) (low : Nat) : (c.take low).2.requested = c.requested := by
  rw [take]
  split <;> split <;> rfl

theorem refillLimit_take (c : SizeClass) (low : Nat) : (c.take low).2.refillLimit = c.refillLimit := by
  rw [take]
  split <;> split <;> rfl

theorem persists_give (c : SizeClass) (block : Block) : c.Persists (c.give block) := by
  unfold give
  split <;> exact ⟨rfl, rfl, id⟩

theorem requested_give (c : SizeClass) (block : Block) : (c.give block).requested = c.requested := by
  unfold give
  split <;> rfl

theorem Conforms.take_none (conforms : c.Conforms preallocate) (refused : (c.take low).1 = none) :
    c.free = [] ∧ c.refills = [] := by
  have empty : ¬0 < c.stored := by
    intro stored
    obtain ⟨block, taken⟩ := conforms.take_some stored low
    rw [refused] at taken
    cases taken
  unfold stored at empty
  exact ⟨List.length_eq_zero_iff.mp (by omega), List.length_eq_zero_iff.mp (by omega)⟩

/-- An answer lifts the request and leaves a refill on its way, old or new. -/
theorem topUp_requested (standing : c.requested = true) (some : 0 < batch) (ring : 0 < c.refillLimit) :
    ∃ refills, (c.topUp batch).2 = { c with requested := false, refills } ∧ refills ≠ [] := by
  rw [topUp, if_pos standing]
  refine ⟨_, rfl, ?_⟩
  apply List.ne_nil_of_length_pos
  rw [List.length_append, List.length_replicate]
  omega

theorem size_topUp (c : SizeClass) (batch : Nat) : (c.topUp batch).2.size = c.size := by
  unfold topUp
  split <;> rfl

theorem topUp_answered (c : SizeClass) (batch : Nat) : (c.topUp batch).2.requested = false := by
  unfold topUp
  split
  · rfl
  · exact Bool.eq_false_iff.mpr ‹_›

theorem refillLimit_topUp (c : SizeClass) (batch : Nat) : (c.topUp batch).2.refillLimit = c.refillLimit := by
  unfold topUp
  split <;> rfl

theorem Conforms.absorbs (conforms : c.Conforms preallocate) (watermark : low ≤ preallocate)
    (starved : c.free.length ≤ low) (coming : c.refills ≠ []) : c.free.length < c.absorb.free.length := by
  have limit := conforms.limit
  have count := List.length_pos_of_ne_nil coming
  simp only [SizeClass.absorb, List.length_append, List.length_reverse, List.length_take]
  omega

end SizeClass

/-! ### Pools -/

namespace Pool

/-- What a pool keeps from one answer of housekeeping to the next. -/
def Persists (pool after : Pool) : Prop := List.Forall₂ SizeClass.Persists pool.classes after.classes

/-- A pool whose classes can be sent refills. -/
structure Refillable (settings : Settings) (pool : Pool) : Prop where
  conforms : pool.Conforms settings
  batch : 0 < pool.batch
  ring : ∀ c ∈ pool.classes, 0 < c.refillLimit

/-- A pool that nobody waits for in vain: refills can be sent, and while a class asks for them the
signal is pending. -/
structure Supplied (settings : Settings) (pool : Pool) : Prop extends Refillable settings pool where
  alarm : ∀ c ∈ pool.classes, c.requested = true → pool.signal.pending = true

/-- A request of the class for payloads of a length stands. -/
def Asks (pool : Pool) (length : Nat) : Prop :=
  ∃ c, pool.classes.find? (fun c => length ≤ c.size) = some c ∧ c.requested = true

variable {settings : Settings} {pool after : Pool} {length : Nat} {c d : SizeClass}

theorem Persists.refl (pool : Pool) : pool.Persists pool := List.forall₂_same.mpr fun c _ => .refl c

theorem persists_replace {before behind : List SizeClass} (whole : pool.classes = before ++ c :: behind)
    (persists : c.Persists d) (signal : Signal) :
    pool.Persists { pool with classes := before ++ d :: behind, signal } := by
  have same (classes : List SizeClass) : List.Forall₂ SizeClass.Persists classes classes :=
    List.forall₂_same.mpr fun c _ => .refl c
  unfold Persists
  rw [whole]
  exact List.rel_append (same before) (.cons persists (same behind))

theorem Persists.asks (persists : pool.Persists after) (asks : pool.Asks length) : after.Asks length := by
  obtain ⟨c, found, standing⟩ := asks
  unfold Persists at persists
  unfold Asks
  generalize pool.classes = classes at persists found
  generalize after.classes = others at persists
  induction persists with
  | nil => cases found
  | cons first _ ih =>
    rw [List.find?_cons] at found ⊢
    rw [first.size]
    split at found
    · cases found
      exact ⟨_, rfl, first.request standing⟩
    · exact ih found

theorem Supplied.replace (supplied : pool.Supplied settings) {before behind : List SizeClass}
    (whole : pool.classes = before ++ c :: behind) (persists : c.Persists d)
    (sound : d.Conforms settings.poolPreallocate) {signal : Signal}
    (kept : pool.signal.pending = true → signal.pending = true)
    (raised : d.requested = true → c.requested = true ∨ signal.pending = true) :
    Supplied settings { pool with classes := before ++ d :: behind, signal } := by
  obtain ⟨⟨conforms, batch, ring⟩, alarm⟩ := supplied
  have conforms := conforms.replace whole persists.size sound signal
  rw [whole] at ring alarm
  rw [List.forall_mem_append, List.forall_mem_cons] at ring alarm
  obtain ⟨front, own, rear⟩ := ring
  obtain ⟨ahead, mine, past⟩ := alarm
  have last : d.requested = true → signal.pending = true := by
    intro standing
    rcases raised standing with old | new
    · exact kept (mine old)
    · exact new
  refine ⟨⟨conforms, batch, ?_⟩, ?_⟩
  · exact List.forall_mem_append.mpr ⟨front, List.forall_mem_cons.mpr ⟨persists.ring ▸ own, rear⟩⟩
  · refine List.forall_mem_append.mpr ⟨fun e member standing => kept (ahead e member standing), ?_⟩
    exact List.forall_mem_cons.mpr ⟨last, fun e member standing => kept (past e member standing)⟩

/-! ### Requests -/

theorem alloc_serving (small : length ≤ pool.maxPayload)
    (serving : pool.classes.find? (fun c => length ≤ c.size) = some c) :
    ∃ before behind starved, pool.classes = before ++ c :: behind ∧
      (∀ d : SizeClass, d.size = c.size →
        (before ++ d :: behind).find? (fun c => length ≤ c.size) = some d) ∧
      ((c.take pool.lowWatermark).1 = none → starved = true) ∧
      pool.alloc length =
        ((c.take pool.lowWatermark).1.map fun block => ⟨zeros length, block.size⟩,
          { pool with
            classes := before ++ { (c.take pool.lowWatermark).2 with requested := c.requested || starved } ::
              behind
            signal := if starved && !c.requested then pool.signal.notify.2 else pool.signal }) := by
  rcases splitAtFirst_cases (fun c => decide (length ≤ c.size)) pool.classes with
    ⟨absent, -⟩ | ⟨before, d, behind, split, whole, found, long⟩
  · cases absent.symm.trans serving
  · cases found.symm.trans serving
    refine ⟨before, behind, (c.take pool.lowWatermark).1.isNone ||
      decide ((c.take pool.lowWatermark).2.free.length < pool.lowWatermark), whole, fun d same => ?_,
      fun refused => ?_, ?_⟩
    · have shorter : before.find? (fun c => length ≤ c.size) = none :=
        List.find?_eq_none.mpr fun e member => Bool.eq_false_iff.mp (splitAtFirst_front split member)
      rw [List.find?_append, shorter, Option.none_or]
      exact List.find?_cons_of_pos (by rw [same]; exact long)
    · rw [refused]
      rfl
    · rw [alloc, if_neg (Nat.not_lt.mpr small), split]
      simp only [SizeClass.requested_take]

theorem alloc_unserved (unserved : pool.maxPayload < length ∨
    pool.classes.find? (fun c => length ≤ c.size) = none) : pool.alloc length = (none, pool) := by
  unfold alloc
  split
  · rfl
  · rename_i small
    rcases splitAtFirst_cases (fun c => decide (length ≤ c.size)) pool.classes with
      ⟨-, _, split⟩ | ⟨_, d, _, -, -, found, -⟩
    · rw [split]
    · cases found.symm.trans (unserved.resolve_left small)

theorem alloc_supplied (supplied : pool.Supplied settings) (length : Nat) :
    pool.Persists (pool.alloc length).2 ∧ (pool.alloc length).2.Supplied settings := by
  by_cases small : length ≤ pool.maxPayload
  · cases serving : pool.classes.find? (fun c => length ≤ c.size) with
    | none =>
      rw [alloc_unserved (.inr serving)]
      exact ⟨.refl pool, supplied⟩
    | some c =>
      obtain ⟨before, behind, starved, whole, -, -, result⟩ := alloc_serving small serving
      rw [result]
      have persists : c.Persists
          { (c.take pool.lowWatermark).2 with requested := c.requested || starved } :=
        ⟨c.size_take _, c.refillLimit_take _, fun standing => by rw [standing, Bool.true_or]⟩
      have sound := ((supplied.conforms.at whole).take pool.lowWatermark).1
      refine ⟨persists_replace whole persists _, supplied.replace whole persists
        ⟨sound.blocks, sound.limit, sound.bound⟩ (fun pending => ?_) (fun standing => ?_)⟩
      · split
        · exact pool.signal.pending_notify
        · exact pending
      · cases old : c.requested with
        | true => exact .inl rfl
        | false =>
          have new : (c.requested || starved) = true := standing
          rw [old, Bool.false_or] at new
          rw [new]
          exact .inr pool.signal.pending_notify
  · rw [alloc_unserved (.inl (Nat.lt_of_not_le small))]
    exact ⟨.refl pool, supplied⟩

theorem release_supplied (supplied : pool.Supplied settings) (buffer : Buffer) :
    pool.Persists (pool.release buffer) ∧ (pool.release buffer).Supplied settings := by
  have sound : (pool.release buffer).Conforms settings := by
    by_cases full : pool.Full buffer.capacity
    · rw [release_full buffer full]
      exact supplied.conforms
    · exact (supplied.conforms.release buffer full).1
  rcases splitAtFirst_cases (·.size == buffer.capacity) pool.classes with
    ⟨-, _, split⟩ | ⟨before, c, behind, split, whole, -, -⟩
  · rw [release, split]
    exact ⟨.refl pool, supplied⟩
  · rw [release, split] at sound ⊢
    have persists := c.persists_give ⟨buffer.capacity⟩
    refine ⟨persists_replace whole persists pool.signal, supplied.replace whole persists
      (sound.classes _ (List.mem_append_right _ List.mem_cons_self)) id fun standing => ?_⟩
    rw [SizeClass.requested_give] at standing
    exact .inl standing

/-- A payload that is not too long is refused only by a class that has nothing left. -/
theorem Conforms.exhausted (conforms : pool.Conforms settings) (fits : settings.Fits)
    (small : length ≤ settings.maxPayload) (refused : (pool.alloc length).1 = none) :
    ∃ c, pool.classes.find? (fun c => length ≤ c.size) = some c ∧ c.free = [] ∧ c.refills = [] ∧
      (pool.alloc length).2.Asks length := by
  obtain ⟨size, chosen⟩ := fits.sizeFor small
  obtain ⟨c, serving, rfl⟩ := Option.map_eq_some_iff.mp ((conforms.sizeFor_eq length).trans chosen)
  obtain ⟨before, behind, starved, whole, place, hungry, result⟩ :=
    alloc_serving (conforms.maxPayload ▸ small) serving
  rw [result, Option.map_eq_none_iff] at refused
  obtain ⟨free, refills⟩ := (conforms.at whole).take_none refused
  rw [result]
  refine ⟨c, serving, free, refills, _, place _ (c.size_take pool.lowWatermark), ?_⟩
  rw [hungry refused]
  exact Bool.or_true _

/-! ### Answers -/

theorem classes_topUp (pool : Pool) :
    pool.topUp.2.classes = pool.classes.map fun c => (c.topUp pool.batch).2 := by
  simp [topUp]

theorem supplied_ofSettings (settings : Settings) : (ofSettings settings).Supplied settings := by
  refine ⟨⟨conforms_ofSettings settings, ?_, fun c member => ?_⟩, fun c member standing => ?_⟩
  · simp only [ofSettings]
    omega
  all_goals obtain ⟨size, -, rfl⟩ := List.mem_map.mp member
  · simp only [SizeClass.ofSize]
    omega
  · cases standing

theorem Refillable.topUp (refillable : pool.Refillable settings) : pool.topUp.2.Supplied settings := by
  refine ⟨⟨refillable.conforms.topUp.1, refillable.batch, ?_⟩, ?_⟩
  all_goals
    rw [classes_topUp]
    refine List.forall_mem_map.mpr fun c member => ?_
  · rw [SizeClass.refillLimit_topUp]
    exact refillable.ring c member
  · rw [SizeClass.topUp_answered]
    exact nofun

/-- An answer makes good for every class that asked: it has a refill on its way, which it takes in when
it is low. -/
theorem Refillable.answers (refillable : pool.Refillable settings) (valid : settings.error? = none)
    {number : Nat}
    (present : pool.classes[number]? = some c) (standing : c.requested = true) :
    ∃ d, pool.topUp.2.classes[number]? = some d ∧ d.requested = false ∧ d.free = c.free ∧
      d.refills ≠ [] ∧
        (d.free.length ≤ settings.poolLowWatermark → d.free.length < d.absorb.free.length) := by
  have member := List.mem_of_getElem? present
  obtain ⟨refills, answered, coming⟩ :=
    SizeClass.topUp_requested standing refillable.batch (refillable.ring c member)
  have sound := ((refillable.conforms.classes c member).topUp pool.batch).1
  rw [answered] at sound
  refine ⟨{ c with requested := false, refills }, ?_, rfl, rfl, coming, fun starved => ?_⟩
  · rw [classes_topUp, List.getElem?_map, present, Option.map_some, answered]
  · exact sound.absorbs (Settings.watermark_of_valid valid) starved coming

theorem Asks.answered (asks : pool.Asks length) (refillable : pool.Refillable settings)
    (small : length ≤ settings.maxPayload) : ∃ buffer, (pool.topUp.2.alloc length).1 = some buffer := by
  obtain ⟨c, serving, standing⟩ := asks
  have member := List.mem_of_find?_eq_some serving
  obtain ⟨refills, answered, coming⟩ :=
    SizeClass.topUp_requested standing refillable.batch (refillable.ring c member)
  obtain ⟨sound, -, -⟩ := (refillable.conforms.classes c member).topUp pool.batch
  have found : pool.topUp.2.classes.find? (fun c => length ≤ c.size) = some (c.topUp pool.batch).2 := by
    rw [classes_topUp, List.find?_map]
    simp only [Function.comp_def, SizeClass.size_topUp, serving, Option.map_some]
  have stored : 0 < (c.topUp pool.batch).2.stored := by
    rw [answered]
    exact Nat.lt_of_lt_of_le (List.length_pos_of_ne_nil coming) (Nat.le_add_left _ _)
  obtain ⟨block, taken⟩ := sound.take_some stored pool.topUp.2.lowWatermark
  obtain ⟨_, _, _, _, _, _, result⟩ := alloc_serving (refillable.conforms.maxPayload ▸ small) found
  rw [result, taken]
  exact ⟨_, rfl⟩

end Pool

/-! ### Runs -/

/-- What is done with a pool: its owner asks for buffers, comes by others, shortens and gives back what
he holds, and housekeeping answers the requests. -/
inductive Pool.Use where
  | alloc (length : Nat)
  | adopt (buffer : Buffer)
  | truncate (index length : Nat)
  | release (index : Nat)
  | topUp (acknowledged : Bool)
  deriving DecidableEq, Repr

def Pool.Use.isTopUp : Pool.Use → Bool
  | .topUp _ => true
  | _ => false

/-- A pool and the buffers that its owner holds. -/
structure Lending where
  pool : Pool
  held : List Buffer := []
  deriving DecidableEq, Repr

namespace Lending

/-- One use. The signal of the pool is acknowledged at most right before its requests are looked at. -/
def serve (lending : Lending) : Pool.Use → Lending
  | .alloc length =>
    let (buffer, pool) := lending.pool.alloc length
    { pool, held := lending.held ++ buffer.toList }
  | .adopt buffer => { lending with held := lending.held ++ [buffer] }
  | .truncate index length => { lending with held := lending.held.modify index (·.truncate length) }
  | .release index =>
    match lending.held[index]? with
    | some buffer => { pool := lending.pool.release buffer, held := lending.held.eraseIdx index }
    | none => lending
  | .topUp acknowledged =>
    { lending with pool := (if acknowledged then lending.pool.acknowledge else lending.pool).topUp.2 }

def run (lending : Lending) (uses : List Pool.Use) : Lending := uses.foldl serve lending

variable {settings : Settings} {lending : Lending} {length : Nat}

theorem answerable (supplied : lending.pool.Supplied settings) (acknowledged : Bool) :
    (if acknowledged then lending.pool.acknowledge else lending.pool).Refillable settings := by
  obtain ⟨conforms, batch, ring⟩ := supplied.toRefillable
  cases acknowledged with
  | true => exact ⟨⟨conforms.sizes, conforms.maxPayload, conforms.classes⟩, batch, ring⟩
  | false => exact ⟨conforms, batch, ring⟩

theorem serve_supplied (supplied : lending.pool.Supplied settings) (use : Pool.Use) :
    (lending.serve use).pool.Supplied settings := by
  cases use with
  | alloc length => exact (Pool.alloc_supplied supplied length).2
  | adopt buffer => exact supplied
  | truncate index length => exact supplied
  | release index =>
    rw [serve]
    split
    · exact (Pool.release_supplied supplied _).2
    · exact supplied
  | topUp acknowledged => exact (answerable supplied acknowledged).topUp

theorem run_supplied (supplied : lending.pool.Supplied settings) (uses : List Pool.Use) :
    (lending.run uses).pool.Supplied settings := by
  induction uses generalizing lending with
  | nil => exact supplied
  | cons use uses ih => exact ih (serve_supplied supplied use)

theorem serve_asks (supplied : lending.pool.Supplied settings) (asks : lending.pool.Asks length)
    {use : Pool.Use} (unanswered : use.isTopUp = false) : (lending.serve use).pool.Asks length := by
  cases use with
  | alloc other => exact (Pool.alloc_supplied supplied other).1.asks asks
  | adopt buffer => exact asks
  | truncate index length => exact asks
  | release index =>
    rw [serve]
    split
    · exact (Pool.release_supplied supplied _).1.asks asks
    · exact asks
  | topUp acknowledged => cases unanswered

theorem run_asks (supplied : lending.pool.Supplied settings) (asks : lending.pool.Asks length)
    {uses : List Pool.Use} (unanswered : ∀ use ∈ uses, use.isTopUp = false) :
    (lending.run uses).pool.Asks length := by
  induction uses generalizing lending with
  | nil => exact asks
  | cons use uses ih =>
    obtain ⟨first, others⟩ := List.forall_mem_cons.mp unanswered
    exact ih (serve_supplied supplied use) (serve_asks supplied asks first) others

theorem topUp_serves (supplied : lending.pool.Supplied settings) (asks : lending.pool.Asks length)
    (small : length ≤ settings.maxPayload) (acknowledged : Bool) :
    ∃ buffer, ((lending.serve (.topUp acknowledged)).pool.alloc length).1 = some buffer := by
  refine Pool.Asks.answered ?_ (answerable supplied acknowledged) small
  cases acknowledged <;> exact asks

/-- An exhausted pool recovers. However it was used, while a class asks for refills the signal of the
pool is pending. Where a payload that is not too long gets no buffer, its class asks for refills from
then on, and the next answer, whatever happens before it, brings a buffer for it. No answer lifts a
request without a refill on its way, which a class that is low has the room to take in. -/
theorem exhaustion_recovers (settings : Settings) (valid : settings.error? = none) (uses : List Pool.Use) :
    let lending := run { pool := .ofSettings settings } uses
    (lending.pool.hasRequests = true → lending.pool.signal.pending = true) ∧
      (∀ length ≤ settings.maxPayload, (lending.pool.alloc length).1 = none →
        ∀ others : List Pool.Use, (∀ use ∈ others, use.isTopUp = false) →
          let waiting := lending.run (.alloc length :: others)
          (∃ c, waiting.pool.classes.find? (fun c => length ≤ c.size) = some c ∧ c.requested = true) ∧
            ∀ acknowledged, ∃ buffer,
              ((waiting.serve (.topUp acknowledged)).pool.alloc length).1 = some buffer) ∧
      ∀ (acknowledged : Bool) (number : Nat) (c : SizeClass),
        lending.pool.classes[number]? = some c → c.requested = true →
        ∃ d : SizeClass, (lending.serve (.topUp acknowledged)).pool.classes[number]? = some d ∧
          d.requested = false ∧ d.free = c.free ∧ d.refills ≠ [] ∧
            (d.free.length ≤ settings.poolLowWatermark → d.free.length < d.absorb.free.length) := by
  intro lending
  have supplied : lending.pool.Supplied settings := run_supplied (Pool.supplied_ofSettings settings) uses
  refine ⟨fun asked => ?_, fun length small refused others unanswered => ?_,
    fun acknowledged number c present standing => ?_⟩
  · unfold Pool.hasRequests at asked
    obtain ⟨c, member, standing⟩ := List.any_eq_true.mp asked
    exact supplied.alarm c member standing
  · obtain ⟨-, -, -, -, asks⟩ := supplied.conforms.exhausted (Settings.fits_of_valid valid) small refused
    have standing := run_asks (serve_supplied supplied (.alloc length)) asks unanswered
    have later := run_supplied (serve_supplied supplied (.alloc length)) others
    exact ⟨standing, topUp_serves later standing small⟩
  · refine (answerable supplied acknowledged).answers valid ?_ standing
    cases acknowledged <;> exact present

/-- Both classes start empty. A payload of five bytes is refused, and neither a buffer from elsewhere nor
one that is too small serves it before the answer does. -/
theorem exhaustion_recovers_from_nothing :
    let settings : Settings :=
      { maxPayload := 8, poolClasses := [4, 8], poolPreallocate := 0, poolLowWatermark := 0 }
    let lending := run { pool := .ofSettings settings }
      [.alloc 3, .topUp true, .alloc 3, .truncate 0 2, .alloc 3]
    settings.error? = none ∧ lending.pool.signal.pending = true ∧ (lending.pool.alloc 5).1 = none ∧
      let waiting := lending.run [.alloc 5, .adopt (.ofBytes [1, 2, 3]), .release 0, .release 0, .alloc 5]
      (∃ c, waiting.pool.classes.find? (fun c => 5 ≤ c.size) = some c ∧ c.requested = true) ∧
        ∃ buffer, ((waiting.serve (.topUp true)).pool.alloc 5).1 = some buffer := by
  intro settings lending
  unfold lending
  have valid : settings.error? = none := by decide
  obtain ⟨alarm, recovers, -⟩ := exhaustion_recovers settings valid
    [.alloc 3, .topUp true, .alloc 3, .truncate 0 2, .alloc 3]
  obtain ⟨standing, answered⟩ := recovers 5 (by decide) (by decide +kernel)
    [.adopt (.ofBytes [1, 2, 3]), .release 0, .release 0, .alloc 5] (by decide)
  exact ⟨valid, alarm (by decide +kernel), by decide +kernel, standing, answered true⟩

end Lending

end OscHost
