import OscHost.Proofs.Host.Run
import OscHost.Proofs.Host.Stock

/-!
# No buffer is lost

The buffers of a size class are those in the pool and those of the pending events. No operation of a
host makes one or loses one, whether it succeeds or fails, but for the refills that a pass of the
upkeep sends and the buffers that a full class drops (`buffers_conserved`).
-/

namespace OscHost

namespace Pool

theorem stored_ofSettings (s : Settings) (size : Nat) :
    (ofSettings s).stored size = s.poolClasses.count size * s.poolPreallocate := by
  rw [stored, ofSettings]
  dsimp only
  induction s.poolClasses with
  | nil => simp [total]
  | cons first sizes ih =>
    have whole : (SizeClass.ofSize first s.poolPreallocate).stored = s.poolPreallocate := by
      simp [SizeClass.stored, SizeClass.ofSize]
    have fits : (SizeClass.ofSize first s.poolPreallocate).size = first := rfl
    rw [List.map_cons, List.filter_cons, List.count_cons, Nat.add_mul, ← ih, fits]
    split
    · rw [List.map_cons, total, whole, Nat.one_mul, Nat.add_comm]
    · rw [Nat.zero_mul, Nat.add_zero]

end Pool

namespace Stock

variable {settings : Settings} {s t : Stock} {dropped : List Nat}

/-- A class can only be full if there are more buffers of its size than at the start. -/
theorem Step.keeps_all (step : Step s dropped t) (sound : s.Sound settings) {size : Nat}
    (few : s.count size ≤ settings.poolPreallocate) : dropped.count size = 0 := by
  cases step with
  | @drop pool queue hand buffer full =>
    refine List.count_eq_zero.mpr fun same => ?_
    cases List.mem_singleton.mp same
    obtain ⟨c, found, limit⟩ := full
    have member := List.mem_of_find?_eq_some found
    have fits := List.find?_some found
    have made := (sound.pool.classes c member).limit
    obtain ⟨before, after, split⟩ := List.append_of_mem member
    obtain ⟨rest, stored, -⟩ := Pool.stored_replace (d := c) split rfl pool.signal buffer.capacity
    rw [if_pos (beq_iff_eq.mp fits), SizeClass.stored] at stored
    simp only [count] at few
    omega
  | _ => rfl

theorem Moves.keeps_all (moves : Moves s dropped t) (sound : s.Sound settings)
    (few : ∀ size ∈ settings.poolClasses, s.count size ≤ settings.poolPreallocate) :
    ∀ size ∈ settings.poolClasses, dropped.count size = 0 := by
  induction moves with
  | nil => exact fun _ _ => rfl
  | cons step rest ih =>
    intro size known
    obtain ⟨between, balance⟩ := step.balance sound
    rw [List.count_append, step.keeps_all sound (few size known), Nat.zero_add]
    refine ih between (fun other known => ?_) size known
    have kept := balance other known
    have bound := few other known
    omega

end Stock

/-! ### Operations -/

namespace Host

def stock (host : Host μ) : Stock := host.desk.stock

/-- How many buffers of a size the pool and the pending events of a host have. -/
def holding (host : Host μ) (size : Nat) : Nat :=
  host.pool.stored size + Buffer.count size host.queue.payloads

/-- Whether an operation can make a pass of the upkeep, in which refills are sent. -/
def Operation.isPass : Operation μ → Bool
  | upkeep .. | attend .. | stop .. => true
  | _ => false

theorem count_stock (host : Host μ) (size : Nat) : host.stock.count size = host.holding size := rfl

theorem Wired.leads {host after : Host μ} (wired : host.Wired after) : host.stock.Leads after.stock := by
  obtain ⟨_, _, rfl⟩ := wired
  exact .refl _

theorem Fed.leads {host after : Host μ} (fed : host.Fed after) : host.stock.Leads after.stock := by
  obtain ⟨_, _, _, rfl⟩ := fed
  exact .refl _

variable (host : Host μ)

theorem onDesk_leads {step : Desk → α × Desk} (leads : ∀ desk : Desk, desk.stock.Leads (step desk).2.stock) :
    host.stock.Leads (host.onDesk step).2.stock := leads host.desk

theorem removeModule_leads (id : ModuleId) : host.stock.Leads (host.removeModule id).2.2.stock := by
  rw [removeModule]
  split
  · exact .refl _
  · exact host.desk.leads_discard _

theorem process_leads [Behaviour μ] (mediaMicros frames : UInt64) :
    host.stock.Leads (host.process mediaMicros frames).2.2.stock := by
  have collected : host.stock.Leads (host.collected mediaMicros frames).stock :=
    (leads_runTurn ..).trans (Desk.leads_serveInlets ..)
  have emptied := collected.trans (Desk.leads_drain _ host.frame frames)
  exact emptied.trans (leads_runTurn ..)

theorem perform_leads [Behaviour μ] {operation : Operation μ} (plain : operation.isPass = false) :
    host.stock.Leads (host.perform operation).2.stock := by
  cases operation with
  | schedule destination time payload =>
    exact host.onDesk_leads fun desk => desk.leads_schedule destination time payload
  | scheduleMessage destination time path args =>
    exact host.onDesk_leads fun desk => desk.leads_scheduleMessage destination time path args
  | inject destination mode packet =>
    exact host.onDesk_leads fun desk => desk.leads_inject host.clocks destination mode packet
  | cancel handle => exact host.onDesk_leads fun desk => desk.leads_cancel handle
  | clear => exact host.onDesk_leads fun desk => desk.leads_discard fun _ => true
  | removeModule id => exact host.removeModule_leads id
  | process mediaMicros frames => exact host.process_leads mediaMicros frames
  | send inlet packet => exact (send_fed host inlet packet).leads
  | sendFrames inlet decoder => exact (sendFrames_fed host inlet decoder).leads
  | addChild parent module => exact (addChild_wired host parent module).leads
  | connect parent child => exact (connect_wired host parent child).leads
  | start =>
    rw [perform, start]
    split
    · split <;> exact .refl _
    · exact .refl _
  | forceResync now =>
    rw [perform, forceResync]
    split <;> exact .refl _
  | addModule module => exact .refl _
  | disconnect parent child => exact .refl _
  | addInlet destination mode => exact .refl _
  | takeWake => exact .refl _
  | upkeep now reading => cases plain
  | attend now reading => cases plain
  | stop now reading => cases plain

/-! ### Passes -/

/-- The queue is as before, and so is the pool, but for its signal and the refills that were sent. -/
inductive Refills (host after : Host μ) : List TopUp → Prop where
  | idle (queue : after.queue = host.queue) (signal : Signal)
      (pool : after.pool = { host.pool with signal }) : Refills host after []
  | pass (queue : after.queue = host.queue) (signal : Signal)
      (pool : after.pool = { host.pool.topUp.2 with signal }) : Refills host after host.pool.topUp.1

variable {host}

theorem upkeep_pool (host : Host μ) (now : Nat) (reading : ClockPair) :
    (host.upkeep now reading).1.toppedUp = Pool.shipped host.pool.topUp.1 ∧
      (host.upkeep now reading).2.2.queue = host.queue ∧
      (host.upkeep now reading).2.2.pool =
        { host.pool.topUp.2 with signal := host.pool.signal.acknowledge } := by
  have resynced : (host.resyncIfDue now reading).2.pool = host.pool ∧
      (host.resyncIfDue now reading).2.queue = host.queue := by
    rw [resyncIfDue]
    split <;> exact ⟨rfl, rfl⟩
  obtain ⟨pool, queue⟩ := resynced
  rw [upkeep]
  dsimp only
  rw [pool]
  exact ⟨rfl, queue, rfl⟩

theorem upkeep_refills (host : Host μ) (now : Nat) (reading : ClockPair) :
    host.Refills (host.upkeep now reading).2.2 host.pool.topUp.1 := by
  obtain ⟨-, queue, pool⟩ := upkeep_pool host now reading
  exact .pass queue _ pool

theorem attend_refills (host : Host μ) (now : Nat) (reading : ClockPair) :
    ∃ sent, host.Refills (host.attend now reading) sent := by
  rw [attend]
  split
  · dsimp only
    split
    · obtain ⟨-, queue, pool⟩ := upkeep_pool { host with pool := host.pool.takeWake.2 } now reading
      exact ⟨_, .pass queue _ pool⟩
    · exact ⟨_, .idle rfl host.pool.signal rfl⟩
  · exact ⟨_, .idle rfl host.pool.signal rfl⟩

theorem perform_refills [Behaviour μ] (host : Host μ) {operation : Operation μ}
    (pass : operation.isPass = true) : ∃ sent, host.Refills (host.perform operation).2 sent := by
  cases operation with
  | upkeep now reading =>
    rw [perform, upkeepByHand]
    split
    · exact ⟨_, upkeep_refills host now reading⟩
    · exact ⟨_, .idle rfl host.pool.signal rfl⟩
  | attend now reading => exact attend_refills host now reading
  | stop now reading =>
    obtain ⟨sent, attended⟩ := attend_refills { host with pool := host.pool.notify.2 } now reading
    cases attended with
    | idle queue signal pool => exact ⟨_, .idle queue signal pool⟩
    | pass queue signal pool => exact ⟨_, .pass queue signal pool⟩
  | _ => cases pass

variable {after : Host μ} {settings : Settings} {sent : List TopUp}

theorem Refills.balance (refills : host.Refills after sent) (sound : host.stock.Sound settings) :
    after.stock.Sound settings ∧ ∀ size, after.holding size = host.holding size + Pool.shippedOf size sent := by
  obtain ⟨conforms, queued⟩ := sound
  cases refills with
  | idle queue signal pool =>
    have same : ∀ size, after.pool.stored size = host.pool.stored size := by
      intro size
      rw [pool]
      rfl
    refine ⟨⟨?_, ?_⟩, fun size => ?_⟩
    · show after.pool.Conforms settings
      rw [pool]
      exact ⟨conforms.sizes, conforms.maxPayload, conforms.classes⟩
    · show after.queue.Sound
      rw [queue]
      exact queued
    · rw [holding, holding, same, queue]
      rfl
  | pass queue signal pool =>
    obtain ⟨kept, gained⟩ := conforms.topUp
    have same : ∀ size, after.pool.stored size = host.pool.topUp.2.stored size := by
      intro size
      rw [pool]
      rfl
    refine ⟨⟨?_, ?_⟩, fun size => ?_⟩
    · show after.pool.Conforms settings
      rw [pool]
      exact ⟨kept.sizes, kept.maxPayload, kept.classes⟩
    · show after.queue.Sound
      rw [queue]
      exact queued
    · have gained := gained size
      simp only [stock, Desk.stock, desk] at gained
      rw [holding, holding, same, queue, gained]
      omega

/-! ### Runs -/

theorem initial_sound (settings : Settings) (sampleRate : Float) (period : UInt64) (now : Nat)
    (reading : ClockPair) :
    (initial settings sampleRate period now reading : Host μ).stock.Sound settings :=
  ⟨Pool.conforms_ofSettings settings, Queue.sound_ofCapacity settings.queueCapacity⟩

theorem perform_sound [Behaviour μ] (sound : host.stock.Sound settings) (operation : Operation μ) :
    (host.perform operation).2.stock.Sound settings := by
  cases pass : operation.isPass with
  | true =>
    obtain ⟨sent, refills⟩ := perform_refills host pass
    exact (refills.balance sound).1
  | false =>
    obtain ⟨dropped, moves⟩ := host.perform_leads pass
    exact (moves.balance sound).1

theorem run_sound [Behaviour μ] (sound : host.stock.Sound settings) (operations : List (Operation μ)) :
    (host.run operations).2.stock.Sound settings := by
  induction operations generalizing host with
  | nil => exact sound
  | cons operation operations ih => exact ih (perform_sound sound operation)

/-- Without passes no class is ever full, so nothing is dropped. -/
theorem run_holding [Behaviour μ] (sound : host.stock.Sound settings)
    (all : ∀ size ∈ settings.poolClasses, host.holding size = settings.poolPreallocate)
    {operations : List (Operation μ)} (plain : ∀ operation ∈ operations, operation.isPass = false) :
    ∀ size ∈ settings.poolClasses, (host.run operations).2.holding size = settings.poolPreallocate := by
  induction operations generalizing host with
  | nil => exact all
  | cons operation operations ih =>
    obtain ⟨first, others⟩ := List.forall_mem_cons.mp plain
    obtain ⟨dropped, moves⟩ := host.perform_leads first
    obtain ⟨kept, balance⟩ := moves.balance sound
    have none := moves.keeps_all sound fun size known => Nat.le_of_eq (all size known)
    have same : ∀ size ∈ settings.poolClasses,
        (host.perform operation).2.holding size = settings.poolPreallocate := by
      intro size known
      have step := balance size known
      rw [none size known, count_stock, count_stock, Nat.add_zero] at step
      rw [step, all size known]
    exact ih kept same others

/-- In a host at any time, a plain operation only hands buffers on, so their number stays but for those
that a full class drops, and a pass adds the refills that it reports. A class takes up to a fixed number
of free blocks. As long as there was no pass, the buffers of each size are those of the start. -/
theorem buffers_conserved [Behaviour μ] (settings : Settings) (sampleRate : Float) (period : UInt64)
    (now : Nat) (reading : ClockPair) (valid : settings.error? = none) (operations : List (Operation μ)) :
    let start : Host μ := initial settings sampleRate period now reading
    let host := (start.run operations).2
    (∀ operation : Operation μ, operation.isPass = false → ∃ dropped,
        host.stock.Moves dropped (host.perform operation).2.stock ∧
        ∀ size ∈ settings.poolClasses,
          (host.perform operation).2.holding size + dropped.count size = host.holding size) ∧
      (∀ operation : Operation μ, operation.isPass = true → ∃ sent,
        host.Refills (host.perform operation).2 sent ∧
        ∀ size, (host.perform operation).2.holding size =
          host.holding size + Pool.shippedOf size sent) ∧
      (∀ now reading, (host.upkeep now reading).1.toppedUp = Pool.shipped host.pool.topUp.1 ∧
        ∀ size, (host.upkeep now reading).2.2.holding size =
          host.holding size + Pool.shippedOf size host.pool.topUp.1) ∧
      (∀ c ∈ host.pool.classes, c.free.length ≤ c.limit ∧
        c.limit = settings.poolPreallocate + max settings.poolPreallocate 1) ∧
      ((∀ operation ∈ operations, operation.isPass = false) →
        ∀ size ∈ settings.poolClasses, host.holding size = settings.poolPreallocate) := by
  intro start host
  have fresh : start.stock.Sound settings := initial_sound settings sampleRate period now reading
  have sound : host.stock.Sound settings := run_sound fresh operations
  refine ⟨fun operation plain => ?_, fun operation pass => ?_, fun now reading => ?_, fun c member => ?_,
    fun plain => run_holding fresh (fun size known => ?_) plain⟩
  · obtain ⟨dropped, moves⟩ := host.perform_leads plain
    exact ⟨dropped, moves, (moves.balance sound).2⟩
  · obtain ⟨sent, refills⟩ := perform_refills host pass
    exact ⟨sent, refills, (refills.balance sound).2⟩
  · exact ⟨(upkeep_pool host now reading).1, ((upkeep_refills host now reading).balance sound).2⟩
  · exact ⟨(sound.pool.classes c member).bound, (sound.pool.classes c member).limit⟩
  · have once := List.count_eq_one_of_mem (Settings.nodup_poolClasses valid) known
    show (Pool.ofSettings settings).stored size +
      Buffer.count size (Queue.ofCapacity settings.queueCapacity).payloads = _
    rw [Pool.stored_ofSettings, once, Queue.payloads_ofCapacity, Buffer.count, List.countP_nil,
      Nat.one_mul, Nat.add_zero]

/-- Two passes bring a class of one block to three. It has room for two, so the third is dropped when
all are free. -/
theorem buffers_conserved_overfull :
    let settings : Settings :=
      { queueCapacity := 4, maxPayload := 64, poolClasses := [64], poolPreallocate := 1,
        poolLowWatermark := 1 }
    let reading : ClockPair := { mediaMicros := 0, wall := ⟨0⟩ }
    let operations : List (Operation Sequencer) :=
      [.schedule .broadcast 9 [1], .upkeep 0 reading, .schedule .broadcast 9 [2], .upkeep 0 reading,
        .clear, .schedule .broadcast 9 [3], .schedule .broadcast 9 [4]]
    let host := ((initial settings 48000 256 0 reading).run operations).2
    settings.error? = none ∧ host.holding 64 = 3 ∧
      ∃ dropped, host.stock.Moves dropped (host.perform .clear).2.stock ∧ dropped.count 64 = 1 := by
  intro settings reading operations host
  have valid : settings.error? = none := by decide
  have three : host.holding 64 = 3 := by decide +kernel
  have two : (host.perform .clear).2.holding 64 = 2 := by decide +kernel
  obtain ⟨dropped, moves, balance⟩ :=
    (buffers_conserved settings 48000 256 0 reading valid operations).1 .clear rfl
  have balance : (host.perform .clear).2.holding 64 + dropped.count 64 = host.holding 64 :=
    balance 64 List.mem_cons_self
  rw [three, two] at balance
  exact ⟨valid, three, dropped, moves, by omega⟩

end Host

end OscHost
