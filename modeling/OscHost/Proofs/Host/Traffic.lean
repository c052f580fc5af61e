import OscHost.Host.Upkeep
import OscHost.Proofs.Packet.Flattening
import OscHost.Proofs.Schedule.Pending
import OscHost.Proofs.Schedule.Storage

/-!
# Traffic

All that a host does to its queue is a sequence of requests, and no event that it schedules has a longer
payload than its pool allows (`Desk.Proceeds`). So whatever such a request preserves is preserved by every
way into and out of the queue: by scheduling, by packets, by inlets and by the turns of the modules.
-/

namespace OscHost

/-! ### The desk -/

namespace Desk

/-- The second desk comes out of the first by requests within the limit of its pool, which stays. -/
structure Proceeds (desk after : Desk) : Prop where
  queue : desk.queue.Takes desk.pool.maxPayload after.queue
  limit : after.pool.maxPayload = desk.pool.maxPayload

theorem Proceeds.refl {desk : Desk} : desk.Proceeds desk := ⟨.refl, rfl⟩

theorem Proceeds.trans {desk between after : Desk} (first : desk.Proceeds between)
    (second : between.Proceeds after) : desk.Proceeds after := by
  have queue := second.queue
  rw [first.limit] at queue
  exact ⟨first.queue.trans queue, second.limit.trans first.limit⟩

theorem proceeds_alloc (desk : Desk) (length : Nat) : desk.Proceeds (desk.alloc length).2 := by
  have limit := desk.pool.maxPayload_alloc length
  rw [alloc]
  split <;> rename_i supplied <;> rw [supplied] at limit <;> exact ⟨.refl, limit⟩

theorem alloc_within {desk after : Desk} {length : Nat} {buffer : Buffer}
    (supplied : desk.alloc length = (.ok buffer, after)) : buffer.bytes.length ≤ after.pool.maxPayload := by
  have limit := (desk.proceeds_alloc length).limit
  rw [supplied] at limit
  rw [alloc] at supplied
  split at supplied
  · rename_i given
    cases supplied
    rw [limit]
    exact Pool.alloc_within given
  · cases supplied

theorem proceeds_report (desk : Desk) (d : Diagnostic) : desk.Proceeds (desk.report d) := ⟨.refl, rfl⟩

theorem proceeds_release (desk : Desk) (buffer : Buffer) : desk.Proceeds (desk.release buffer) :=
  ⟨.refl, desk.pool.maxPayload_release buffer⟩

theorem proceeds_releaseAll (desk : Desk) (events : List Event) : desk.Proceeds (desk.releaseAll events) :=
  ⟨.refl, desk.pool.maxPayload_releaseAll _⟩

theorem proceeds_scheduleBuffer (desk : Desk) {event : Event}
    (short : event.bytes.length ≤ desk.pool.maxPayload) :
    desk.Proceeds (desk.scheduleBuffer event).2 := by
  rw [scheduleBuffer]
  split
  · rename_i stored
    exact ⟨Queue.takes_schedule short stored, rfl⟩
  · exact (proceeds_report desk _).trans (proceeds_release _ event.payload)

theorem proceeds_schedule (desk : Desk) (destination : Destination) (time : UInt64) (payload : List UInt8) :
    desk.Proceeds (desk.schedule destination time payload).2 := by
  have first := desk.proceeds_alloc payload.length
  rw [schedule]
  split
  · rename_i supplied
    rwa [supplied] at first
  · rename_i supplied
    rw [supplied] at first
    have short := alloc_within supplied
    refine first.trans (proceeds_scheduleBuffer _ ?_)
    rw [Event.bytes, Buffer.length_fill]
    exact short

theorem proceeds_scheduleMessage (desk : Desk) (destination : Destination) (time : UInt64) (path : String)
    (args : List Argument) : desk.Proceeds (desk.scheduleMessage destination time path args).2 := by
  have first := desk.proceeds_alloc (messageLength path args)
  rw [scheduleMessage]
  split
  · rename_i supplied
    rwa [supplied] at first
  · rename_i supplied
    rw [supplied] at first
    have short := alloc_within supplied
    split
    · exact first.trans (proceeds_release _ _)
    · refine first.trans (proceeds_scheduleBuffer _ ?_)
      rw [Event.bytes, Buffer.truncate, List.length_take, Buffer.length_fill]
      exact Nat.le_trans (Nat.min_le_right _ _) short

theorem proceeds_cancel (desk : Desk) (handle : Handle) : desk.Proceeds (desk.cancel handle).2 := by
  rw [cancel]
  split
  · rename_i event queue cancelled
    exact ⟨Queue.takes_cancel _ cancelled, (proceeds_release { desk with queue } event.payload).limit⟩
  · exact .refl

theorem proceeds_injectItem (destination : Destination) (time : UInt64) (bytes : List UInt8)
    (state : Nat × Desk) : state.2.Proceeds (injectItem destination time bytes state).2 := by
  have proceeds := proceeds_schedule state.2 destination time bytes
  rw [injectItem]
  split <;> rename_i scheduled <;> rwa [scheduled] at proceeds

theorem proceeds_inject (desk : Desk) (clocks : Clocks) (destination : Destination) (mode : UnrollMode)
    (packet : List UInt8) : desk.Proceeds (desk.inject clocks destination mode packet).2 := by
  rw [inject]
  cases parsed : Packet.parse packet with
  | error error =>
    rw [unroll_error _ parsed]
    exact ⟨.refl, rfl⟩
  | ok p =>
    obtain ⟨calls, after, unrolled, makes, -⟩ := unroll_unrolls
      { timestamp := fun tag state => (clocks.frameFor tag, state)
        message := injectItem destination
        bundle := injectItem destination } parsed (0, desk)
    rw [unrolled]
    have item : ∀ time bytes (state : Nat × Desk), desk.Proceeds state.2 →
        desk.Proceeds (injectItem destination time bytes state).2 :=
      fun time bytes state proceeds => proceeds.trans (proceeds_injectItem destination time bytes state)
    exact makes.preserves (fun _ _ kept => kept) item item .refl

theorem proceeds_drain (desk : Desk) (current period : UInt64) :
    desk.Proceeds (desk.drain current period).2 :=
  ⟨desk.queue.takes_drain _ current period, rfl⟩

theorem proceeds_discard (desk : Desk) (p : Event → Bool) : desk.Proceeds (desk.discard p).2 :=
  ⟨desk.queue.takes_removeWhere _ p, desk.pool.maxPayload_releaseAll _⟩

end Desk

/-! ### Inlets -/

/-- What both steps of a taker keep, taking records keeps. The second step is given a buffer that the first
has supplied, with a payload in it. -/
theorem Pipe.takeRecords_keeps [PayloadBuffer β] {taker : Taker σ β} {P : σ → Prop}
    (alloc : ∀ destination time size s, P s → P (taker.alloc destination time size s).2)
    (accept : ∀ destination time payload s t buffer, P t →
      taker.alloc destination time payload.length s = (some buffer, t) →
        P (taker.accept destination time (PayloadBuffer.fill buffer payload) t).2)
    (p : Pipe) {s : σ} (start : P s) : P (p.takeRecords taker s).2.2 := by
  fun_induction takeRecords taker p s with
  | case1 => exact start
  | case2 p s r rest split _ t refused =>
    have kept := alloc r.destination r.time r.payload.length s start
    rwa [refused] at kept
  | case3 p s r rest split _ buffer t supplied short ih =>
    have kept := alloc r.destination r.time r.payload.length s start
    rw [supplied] at kept
    exact ih kept
  | case4 p s r rest split _ buffer t supplied fits filled u accepted count q v taken ih =>
    have kept := alloc r.destination r.time r.payload.length s start
    rw [supplied] at kept
    have kept := accept r.destination r.time r.payload s t buffer kept supplied
    rw [accepted] at kept
    have onwards := ih kept
    rwa [taken] at onwards
  | case5 p s r rest split _ buffer t supplied fits filled u accepted =>
    have kept := alloc r.destination r.time r.payload.length s start
    rw [supplied] at kept
    have kept := accept r.destination r.time r.payload s t buffer kept supplied
    rwa [accepted] at kept

namespace Transfer

/-- The desk with what the transfer has made of its queue and its pool. -/
def onto (t : Transfer) (desk : Desk) : Desk := { desk with queue := t.queue, pool := t.pool }

theorem proceeds_alloc (destination : Destination) (time : UInt64) (size : Nat) (t : Transfer)
    (desk : Desk) : (t.onto desk).Proceeds ((taker.alloc destination time size t).2.onto desk) := by
  have limit := t.pool.maxPayload_alloc size
  rw [taker]
  dsimp only
  split <;> rename_i supplied <;> rw [supplied] at limit <;> exact ⟨.refl, limit⟩

theorem proceeds_accept {destination : Destination} {time : UInt64} {payload : List UInt8}
    {s t : Transfer} {buffer : Buffer}
    (supplied : taker.alloc destination time payload.length s = (some buffer, t)) (desk : Desk) :
    (t.onto desk).Proceeds
      ((taker.accept destination time (PayloadBuffer.fill buffer payload) t).2.onto desk) := by
  let event : Event := ⟨destination, time, buffer.fill payload⟩
  have short : event.bytes.length ≤ t.pool.maxPayload := by
    have limit := s.pool.maxPayload_alloc payload.length
    rw [Event.bytes, Buffer.length_fill]
    rw [taker] at supplied
    dsimp only at supplied
    split at supplied
    · rename_i given
      rw [given] at limit
      cases supplied
      exact Nat.le_trans (Pool.alloc_within given) (Nat.le_of_eq limit.symm)
    · cases supplied
  rw [taker]
  dsimp only
  split
  · rename_i stored
    have stored : t.queue.schedule event = _ := stored
    exact ⟨Queue.takes_schedule short stored, rfl⟩
  · exact .refl

end Transfer

namespace Desk

theorem proceeds_transfer (desk : Desk) (p : Pipe) (signal : Signal) :
    desk.Proceeds (desk.transfer p signal).2.2.2 := by
  have proceeds : desk.Proceeds
      ((p.takeRecords Transfer.taker { queue := desk.queue, pool := desk.pool }).2.2.onto desk) :=
    p.takeRecords_keeps (P := fun t : Transfer => desk.Proceeds (t.onto desk))
      (fun _ _ _ _ proceeds => proceeds.trans (Transfer.proceeds_alloc ..))
      (fun _ _ _ _ _ _ proceeds supplied => proceeds.trans (Transfer.proceeds_accept supplied desk)) .refl
  rw [transfer, Pipe.consume]
  dsimp only
  split <;> refine proceeds.trans ?_ <;> split
  · exact ((proceeds_report _ _).trans (proceeds_report _ _)).trans (proceeds_release _ _)
  · exact (proceeds_report _ _).trans (proceeds_release _ _)
  · exact proceeds_report _ _
  · exact .refl

theorem proceeds_serveInlets (desk : Desk) (inlets : List Inlet) (signal : Signal) :
    desk.Proceeds (desk.serveInlets inlets signal).2.2 := by
  induction inlets generalizing desk signal with
  | nil => exact .refl
  | cons inlet inlets ih => exact (proceeds_transfer desk inlet.pipe signal).trans (ih _ _)

end Desk

/-! ### Modules -/

namespace Desk

theorem proceeds_carryOut (desk : Desk) (clocks : Clocks) (request : Request) :
    desk.Proceeds (desk.carryOut clocks request).2 := by
  cases request with
  | payload destination time bytes => exact proceeds_schedule desk destination time bytes
  | message destination time path args => exact proceeds_scheduleMessage desk destination time path args
  | packet destination mode bytes => exact proceeds_inject desk clocks destination mode bytes
  | cancel handle => exact proceeds_cancel desk handle

theorem proceeds_carryOutAll (desk : Desk) (clocks : Clocks) (requests : List Request) :
    desk.Proceeds (carryOutAll clocks requests desk).2 := by
  induction requests generalizing desk with
  | nil => exact .refl
  | cons request requests ih => exact (proceeds_carryOut desk clocks request).trans (ih _)

end Desk

theorem proceeds_runTurn [Behaviour μ] (turn : Turn) (clocks : Clocks) (frame frames : UInt64)
    (number : Nat) (modules : List (Option μ)) (desk : Desk) :
    desk.Proceeds (runTurn turn clocks frame frames number modules desk).2.2 := by
  induction modules generalizing number desk with
  | nil => exact .refl
  | cons module modules ih =>
    cases module with
    | none => exact ih _ _
    | some module => exact (Desk.proceeds_carryOutAll desk clocks _).trans (ih _ _)

end OscHost
