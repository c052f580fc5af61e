import OscHost.Proofs.Host.Passage
import OscHost.Proofs.Schedule.Replenishing

/-!
# Pipes that do not jam

The record at the front of a pipe holds up all behind it, so one that could never leave would stop the
inlet for good. With valid settings there is none: in a run every inlet holds whole records that its pipe
had the right to take, the pool has a class for each of them, and an empty pipe has room for the longest.
-/

namespace OscHost

namespace Settings

variable {s : Settings}

theorem pipe_of_valid (valid : s.error? = none) : recordHeaderLength + s.maxPayload ≤ s.pipeCapacity := by
  unfold error? at valid
  iterate 4 obtain ⟨-, valid⟩ := none_of_ite valid
  obtain ⟨long, -⟩ := none_of_ite valid
  exact Nat.le_of_not_lt long

end Settings

/-! ### Pipes -/

namespace Pipe

/-- A pipe as a host opens it, with whole records that wait in it. -/
structure Serviceable (settings : Settings) (p : Pipe) (waiting : List Record) : Prop where
  holds : p.Holds waiting
  limit : p.maxPayload = settings.maxPayload
  room : recordHeaderLength + settings.maxPayload ≤ p.capacity
  small : ∀ r ∈ waiting, r.payload.length ≤ settings.maxPayload

variable {p : Pipe} {r : Record} {waiting : List Record} {settings : Settings}

theorem produce_limits (p : Pipe) (r : Record) :
    (p.produce r).2.maxPayload = p.maxPayload ∧ (p.produce r).2.capacity = p.capacity := by
  rw [produce]
  split
  · exact ⟨rfl, rfl⟩
  · split <;> exact ⟨rfl, rfl⟩

theorem offer_limits (p : Pipe) (records : List Record) :
    (p.offer records).maxPayload = p.maxPayload ∧ (p.offer records).capacity = p.capacity := by
  induction records generalizing p with
  | nil => exact ⟨rfl, rfl⟩
  | cons r records ih =>
    obtain ⟨limit, capacity⟩ := produce_limits p r
    have onwards := ih (p.produce r).2
    rw [limit, capacity] at onwards
    exact onwards

theorem accepted_small (p : Pipe) (records : List Record) :
    ∀ r ∈ p.accepted records, r.payload.length ≤ p.maxPayload := by
  induction records generalizing p with
  | nil => exact nofun
  | cons r records ih =>
    have onwards := ih (p.produce r).2
    rw [(produce_limits p r).1] at onwards
    rw [accepted]
    rcases produced : p.produce r with ⟨error | _, q⟩
    · rw [produced] at onwards
      exact onwards
    · rw [produced] at onwards
      refine List.forall_mem_cons.mpr ⟨Nat.le_of_not_lt fun long => ?_, onwards⟩
      rw [produce, if_pos long] at produced
      cases produced

theorem Serviceable.produce_empty (serviceable : p.Serviceable settings waiting) (empty : p.bytes = [])
    (small : r.payload.length ≤ settings.maxPayload) : (p.produce r).1 = .ok () := by
  have room := serviceable.room
  have short : ¬p.maxPayload < r.payload.length := by
    rw [serviceable.limit]
    exact Nat.not_lt.mpr small
  have free : ¬p.freeSpace < recordHeaderLength + r.payload.length := by
    rw [freeSpace, empty, List.length_nil]
    omega
  rw [produce, if_neg short, if_neg free]

theorem Serviceable.offer (serviceable : p.Serviceable settings waiting) (records : List Record) :
    (p.offer records).Serviceable settings (waiting ++ p.accepted records) := by
  obtain ⟨holds, limit, room, small⟩ := serviceable
  obtain ⟨sameLimit, sameCapacity⟩ := p.offer_limits records
  refine ⟨holds.offer records, sameLimit.trans limit, sameCapacity ▸ room, ?_⟩
  exact List.forall_mem_append.mpr ⟨small, limit ▸ p.accepted_small records⟩

end Pipe

/-! ### The end of a turn -/

namespace Desk

variable {desk after : Desk} {records boarded lost left : List Record} {settings : Settings}

/-- What keeps a record from boarding: its class has nothing left, or the queue is full. -/
def Stops (desk : Desk) (r : Record) : Prop :=
  (∃ c, desk.pool.classes.find? (fun c => r.payload.length ≤ c.size) = some c ∧ c.free = [] ∧
    c.refills = []) ∨ desk.queue.size = desk.queue.capacity

theorem Boards.conforms (boards : desk.Boards records after) (conforms : desk.pool.Conforms settings) :
    after.pool.Conforms settings := by
  induction boards with
  | nil => exact conforms
  | @cons desk after r records buffer pool handle queue supplied stored onwards ih =>
    have kept := (conforms.alloc r.payload.length).1
    rw [supplied] at kept
    exact ih kept

theorem Turn.stops (turn : desk.Turn boarded lost left after) (conforms : desk.pool.Conforms settings)
    (fits : settings.Fits) (small : ∀ r ∈ lost ++ left, r.payload.length ≤ settings.maxPayload) :
    ∃ between, desk.Boards boarded between ∧ ∀ r rest, lost ++ left = r :: rest → between.Stops r := by
  cases turn with
  | all boards => exact ⟨_, boards, nofun⟩
  | @starved left r between pool boards starved =>
    refine ⟨between, boards, fun _ _ same => ?_⟩
    cases same
    obtain ⟨c, serving, free, refills, -⟩ := (boards.conforms conforms).exhausted fits
      (small r List.mem_cons_self) (congrArg Prod.fst starved)
    exact .inl ⟨c, serving, free, refills⟩
  | @full left r between _ _ boards _ full =>
    refine ⟨between, boards, fun _ _ same => ?_⟩
    cases same
    exact .inr full

end Desk

/-! ### Runs -/

namespace Host

variable [Behaviour μ] {host : Host μ} {settings : Settings}

/-- The pipe of every inlet is as the host has opened it, with whole records. -/
def Serviceable (settings : Settings) (host : Host μ) : Prop :=
  ∀ inlet ∈ host.inlets, ∃ waiting, inlet.pipe.Serviceable settings waiting

/-- Outside of the periods inlets are opened and offered records, and that is all. -/
theorem perform_inlets {P : Inlet → Prop} (opened : ∀ destination mode, P (host.nextInlet destination mode))
    (offered : ∀ inlet records malformed dropped, P inlet →
      P { inlet with pipe := inlet.pipe.offer records, malformed, dropped })
    {operation : Operation μ} (plain : ∀ mediaMicros frames, operation ≠ .process mediaMicros frames)
    (all : ∀ inlet ∈ host.inlets, P inlet) : ∀ inlet ∈ (host.perform operation).2.inlets, P inlet := by
  have quiet {operation : Operation μ} (quiet : operation.isQuiet = true) :
      ∀ inlet ∈ (host.perform operation).2.inlets, P inlet := by
    obtain ⟨-, same | ⟨destination, mode, more⟩⟩ := host.perform_quiet quiet
    · rw [same]
      exact all
    · rw [more]
      exact List.forall_mem_append.mpr ⟨all, List.forall_mem_singleton.mpr (opened destination mode)⟩
  have fed {α : Type} (number : Nat) {step : Inlet → Channel → Signal → α × Inlet × Channel × Signal}
      (offers : ∀ inlet channel signal, ∃ records malformed dropped, (step inlet channel signal).2.1 =
        { inlet with pipe := inlet.pipe.offer records, malformed, dropped }) :
      ∀ inlet ∈ (((host.onInlet number step).map (·.2)).getD host).inlets, P inlet := by
    unfold onInlet
    cases there : host.inlets[number]? with
    | none => exact all
    | some inlet =>
      obtain ⟨_, _, _, changed⟩ := offers inlet (host.hub.channel inlet.sender) host.inbound
      intro other member
      rcases List.mem_or_eq_of_mem_set member with old | rfl
      · exact all other old
      · rw [changed]
        exact offered inlet _ _ _ (all inlet (List.mem_of_getElem? there))
  cases operation with
  | process mediaMicros frames => exact absurd rfl (plain mediaMicros frames)
  | send number packet =>
    rw [perform, send, Option.map_map]
    exact fed number fun inlet channel signal => ⟨_, inlet.inject_offer host.clocks packet channel signal⟩
  | sendFrames number decoder =>
    rw [perform, sendFrames, Option.map_map]
    exact fed number fun inlet channel signal =>
      ⟨_, inlet.injectFrames_offer host.clocks decoder channel signal⟩
  | takeWake => exact all
  | _ => exact quiet rfl

theorem process_serviceable (sound : host.stock.Sound settings) (serviceable : host.Serviceable settings)
    (mediaMicros frames : UInt64) : (host.process mediaMicros frames).2.2.Serviceable settings := by
  intro after member
  obtain ⟨number, there⟩ := List.mem_iff_getElem?.mp member
  cases opened : host.inlets[number]? with
  | none => cases (process_unopened opened mediaMicros frames).symm.trans there
  | some inlet =>
    obtain ⟨waiting, ⟨bytes, bound, short⟩, limit, room, small⟩ :=
      serviceable inlet (List.mem_of_getElem? opened)
    have whole : inlet.pipe.bytes = waiting.flatMap Record.encode ++ [] := by
      rw [bytes, List.append_nil]
    obtain ⟨boarded, lost, left, _, rfl, -, -, -, inlets, -, -⟩ :=
      passes sound opened whole short rfl mediaMicros frames
    cases inlets.symm.trans there
    exact ⟨left, ⟨List.append_nil _, bound, fun r member => short r (List.mem_append_right _ member)⟩, limit,
      room, fun r member => small r (List.mem_append_right _ member)⟩

theorem run_serviceable (valid : settings.error? = none) (same : host.settings = settings)
    (sound : host.stock.Sound settings) (serviceable : host.Serviceable settings)
    (operations : List (Operation μ)) : (host.run operations).2.Serviceable settings := by
  induction operations generalizing host with
  | nil => exact serviceable
  | cons operation operations ih =>
    refine ih ((perform_settings host operation).trans same) (perform_sound sound operation) ?_
    by_cases plain : ∀ mediaMicros frames, operation ≠ .process mediaMicros frames
    · refine perform_inlets (fun destination mode => ?_) (fun inlet records _ _ ready => ?_) plain serviceable
      · subst same
        obtain ⟨limit, -, room⟩ := host.nextInlet_pipe destination mode (Settings.fits_of_valid valid)
        exact ⟨[], Pipe.holds_new _ _, limit, Nat.le_trans (Settings.pipe_of_valid valid) room,
          List.forall_mem_nil _⟩
      · obtain ⟨waiting, ready⟩ := ready
        exact ⟨_, ready.offer records⟩
    · simp only [ne_eq, not_forall, not_not] at plain
      obtain ⟨mediaMicros, frames, rfl⟩ := plain
      exact process_serviceable sound serviceable mediaMicros frames

/-- With valid settings no inlet jams. At any time in a run, and whatever more was offered to its pipe since,
an inlet holds whole records, each no longer than the settings allow and with a class in the pool. In its turn
they board in order, and a record stops those behind it only where its class has nothing left or the queue is
full. An empty pipe takes every payload that is not too long. -/
theorem run_unjammed (settings : Settings) (valid : settings.error? = none) (sampleRate : Float)
    (period : UInt64) (now : Nat) (reading : ClockPair) (operations : List (Operation μ)) :
    let start : Host μ := initial settings sampleRate period now reading
    let host := (start.run operations).2
    ∀ inlet ∈ host.inlets, ∀ more : List Record,
      let pipe := inlet.pipe.offer more
      (∃ records : List Record, pipe.bytes = records.flatMap Record.encode ∧
        (∀ r ∈ records, r.payload.length ≤ settings.maxPayload ∧
          ∃ size ∈ settings.poolClasses, r.payload.length ≤ size) ∧
        ∀ (inlets : List Inlet) (mediaMicros frames : UInt64) (number : Nat),
          let turn := { host with inlets }.atTurn mediaMicros frames number
          ∃ boarded rest between, records = boarded ++ rest ∧ turn.2.Boards boarded between ∧
            (turn.2.transfer pipe turn.1).1 = boarded.length ∧
            ∀ r behind, rest = r :: behind → between.Stops r) ∧
        (pipe.bytes = [] → ∀ r : Record, r.payload.length ≤ settings.maxPayload →
          (pipe.produce r).1 = .ok ()) := by
  intro start host inlet member more pipe
  have initially : start.stock.Sound settings := initial_sound settings sampleRate period now reading
  have sound : host.stock.Sound settings := run_sound initially operations
  have fits := Settings.fits_of_valid valid
  obtain ⟨waiting, before⟩ :=
    run_serviceable valid rfl initially (List.forall_mem_nil _) operations inlet member
  have serviceable := before.offer more
  generalize waiting ++ inlet.pipe.accepted more = records at serviceable
  refine ⟨⟨records, serviceable.holds.bytes, fun r member => ⟨serviceable.small r member, ?_⟩, ?_⟩,
    fun empty r small => serviceable.produce_empty empty small⟩
  · obtain ⟨size, known, largest⟩ := fits.largest
    exact ⟨size, known, Nat.le_trans (serviceable.small r member) largest⟩
  · intro inlets mediaMicros frames number turn
    have still : { host with inlets }.stock.Sound settings := sound
    have kept : turn.2.stock.Sound settings := atTurn_sound still mediaMicros frames number
    have bytes : pipe.bytes = records.flatMap Record.encode ++ [] := by
      rw [List.append_nil]
      exact serviceable.holds.bytes
    obtain ⟨boarded, lost, left, after, whole, ended, moved, -⟩ :=
      Desk.transfer_turn kept serviceable.holds.short rfl pipe bytes turn.1
    have small : ∀ r ∈ lost ++ left, r.payload.length ≤ settings.maxPayload := by
      intro r member
      refine serviceable.small r ?_
      rw [whole, List.append_assoc]
      exact List.mem_append_right _ member
    obtain ⟨between, boards, stops⟩ := ended.stops kept.pool fits small
    rw [List.append_assoc] at whole
    exact ⟨boarded, lost ++ left, between, whole, boards, congrArg Prod.fst moved, stops⟩

/-- The pool has no block yet, so the message waits in front of its class; the inlet beside takes a payload
of the full eight bytes. -/
theorem run_unjammed_starved :
    let settings : Settings :=
      { queueCapacity := 1, pipeCapacity := 24, maxPayload := 8, poolClasses := [4, 8], poolPreallocate := 0,
        poolLowWatermark := 0 }
    let start : Host Sequencer := initial settings 48000 256 0 { mediaMicros := 0, wall := ⟨0⟩ }
    let message : List UInt8 := [0x2F, 0x61, 0, 0, 0x2C, 0, 0, 0]
    let operations : List (Operation Sequencer) :=
      [.addInlet .broadcast .full, .addInlet .broadcast .full, .send 0 message, .process 0 16]
    let host := (start.run operations).2
    let front := host.inlets[0]?.getD default
    let beside := host.inlets[1]?.getD default
    settings.error? = none ∧ front ∈ host.inlets ∧ beside ∈ host.inlets ∧
      (∃ records : List Record, front.pipe.bytes = records.flatMap Record.encode ∧ records ≠ [] ∧
        let turn := host.atTurn 0 16 0
        ∃ boarded rest between, records = boarded ++ rest ∧ turn.2.Boards boarded between ∧
          (turn.2.transfer front.pipe turn.1).1 = boarded.length ∧
          ∀ r behind, rest = r :: behind → between.Stops r) ∧
      (beside.pipe.produce ⟨.broadcast, 0, message⟩).1 = .ok () := by
  intro settings start message operations host front beside
  have valid : settings.error? = none := by decide
  have unjammed := run_unjammed settings valid 48000 256 0 { mediaMicros := 0, wall := ⟨0⟩ }
    operations
  have first : front ∈ host.inlets := by decide +kernel
  have second : beside ∈ host.inlets := by decide +kernel
  obtain ⟨⟨records, bytes, -, turns⟩, -⟩ := unjammed front first []
  obtain ⟨-, takes⟩ := unjammed beside second []
  refine ⟨valid, first, second, ⟨records, bytes, ?_, turns host.inlets 0 16 0⟩, ?_⟩
  · rintro rfl
    have waits : front.pipe.bytes ≠ [] := by decide +kernel
    exact waits bytes
  · exact takes (by decide +kernel) ⟨.broadcast, 0, message⟩ (by decide)

end Host

end OscHost
