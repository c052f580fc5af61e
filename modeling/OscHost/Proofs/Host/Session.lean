import OscHost.Proofs.Host.Injection
import OscHost.Proofs.Recording.Playback

/-!
# Sessions

What is dispatched over a run can be recorded as a session: the times never go back, and no payload is
longer than the settings allow (`Host.run_short`). If the payloads are messages and no gap is too wide, each
record can stand behind the one before it, so all are written (`LogWriter.writeAll_chain`) and read back
(`LogReader.items_recording`).
-/

namespace OscHost

/-- An event as it is recorded. -/
def Event.logged (event : Event) : LogRecord := { time := event.time, message := event.bytes }

/-- What is dispatched, as an inspector sees it. -/
def Call.shown (calls : List Call) : List LogRecord := (dispatched calls).map Event.logged

namespace Call

theorem shown_append (calls more : List Call) : shown (calls ++ more) = shown calls ++ shown more := by
  rw [shown, dispatched_append, List.map_append]
  rfl

theorem dispatched_times (calls : List Call) :
    ((dispatched calls).map (·.time)).Sublist (times calls) := by
  induction calls with
  | nil => exact .slnil
  | cons call calls ih =>
    cases call with
    | dispatch event => exact ih.cons_cons event.time
    | deliver module time payload => exact ih.cons time
    | request turn period outcome => exact ih
    | teardown module => exact ih

theorem dispatched_nil {calls : List Call} (silent : times calls = []) : dispatched calls = [] := by
  have sub := dispatched_times calls
  rw [silent, List.sublist_nil, List.map_eq_nil_iff] at sub
  exact sub

end Call

/-! ### The length of payloads -/

namespace Host

variable [Behaviour μ] {host : Host μ} {settings : Settings}

theorem perform_short (sound : host.queue.Sound) (short : host.queue.Short host.pool.maxPayload)
    (operation : Operation μ) :
    (host.perform operation).2.queue.Short host.pool.maxPayload ∧
      ∀ event ∈ Call.dispatched (host.perform operation).1, event.bytes.length ≤ host.pool.maxPayload := by
  by_cases idle : ∀ mediaMicros frames, operation ≠ .process mediaMicros frames
  · obtain ⟨rests, silent⟩ := perform_rests host idle
    rw [Call.dispatched_nil silent]
    exact ⟨rests.takes.short sound short, List.forall_mem_nil _⟩
  · simp only [ne_eq, not_forall, not_not] at idle
    obtain ⟨mediaMicros, frames, rfl⟩ := idle
    obtain ⟨takes, -, -⟩ := process_times host sound mediaMicros frames
    refine ⟨takes.short sound short, fun event member => ?_⟩
    have collected := (host.collected_proceeds mediaMicros frames).queue
    obtain ⟨events, -, -⟩ := (collected.becomes.sound sound).toList_drain host.frame frames
    rw [perform, process_dispatched, events] at member
    obtain ⟨pending, due, rfl⟩ := List.mem_map.mp member
    rw [Event.bytes, Event.payload_clamped]
    exact collected.short sound short pending ((List.takeWhile_sublist _).subset due)

theorem run_short (sound : host.stock.Sound settings) (short : host.queue.Short settings.maxPayload)
    (operations : List (Operation μ)) :
    ∀ event ∈ Call.dispatched (host.run operations).1, event.bytes.length ≤ settings.maxPayload := by
  induction operations generalizing host with
  | nil => exact List.forall_mem_nil _
  | cons operation operations ih =>
    have limit : host.pool.maxPayload = settings.maxPayload := sound.pool.maxPayload
    rw [← limit] at short
    obtain ⟨kept, now⟩ := perform_short sound.queue short operation
    rw [limit] at kept now
    have later := ih (perform_sound sound operation) kept
    rw [run, Call.dispatched_append]
    exact List.forall_mem_append.mpr ⟨now, later⟩

end Host

/-! ### Records behind each other -/

namespace LogRecord

/-- Each of the records lies less than 2³² frames behind the one before it. -/
def Near (previous : UInt64) (records : List LogRecord) : Prop :=
  (previous :: records.map (·.time)).IsChain fun previous time => time.toNat < previous.toNat + UInt32.size

variable {previous : UInt64} {records : List LogRecord}

theorem near_cons {r : LogRecord} (near : Near previous (r :: records)) :
    r.time.toNat < previous.toNat + UInt32.size ∧ Near r.time records :=
  List.isChain_cons_cons.mp near

theorem chain_of_near (near : Near previous records)
    (ordered : (previous :: records.map (·.time)).Pairwise (· ≤ ·))
    (wellFormed : ∀ r ∈ records, ∃ m, Message.parse r.message = .ok m)
    (word : ∀ r ∈ records, r.message.length < UInt32.size) : Chain previous records := by
  induction records generalizing previous with
  | nil => trivial
  | cons r records ih =>
    obtain ⟨close, onwards⟩ := near_cons near
    obtain ⟨first, rest⟩ := List.pairwise_cons.mp ordered
    have behind : previous ≤ r.time := first r.time List.mem_cons_self
    obtain ⟨parsed, others⟩ := List.forall_mem_cons.mp wellFormed
    obtain ⟨short, shorts⟩ := List.forall_mem_cons.mp word
    refine ⟨⟨parsed, behind, ?_, short⟩, ih onwards rest others shorts⟩
    rw [UInt64.toNat_sub_of_le _ _ behind]
    omega

theorem lastTime_near (near : Near previous records) :
    (lastTime previous records).toNat ≤ previous.toNat + records.length * (UInt32.size - 1) := by
  induction records generalizing previous with
  | nil => exact Nat.le_add_right _ _
  | cons r records ih =>
    obtain ⟨close, onwards⟩ := near_cons near
    have later := ih onwards
    rw [lastTime, List.length_cons, Nat.add_mul, Nat.one_mul]
    omega

theorem le_lastTime (ordered : (previous :: records.map (·.time)).Pairwise (· ≤ ·)) :
    previous ≤ lastTime previous records ∧ ∀ r ∈ records, r.time ≤ lastTime previous records := by
  induction records generalizing previous with
  | nil => exact ⟨UInt64.le_refl _, List.forall_mem_nil _⟩
  | cons r records ih =>
    obtain ⟨first, rest⟩ := List.pairwise_cons.mp ordered
    obtain ⟨here, later⟩ := ih rest
    exact ⟨UInt64.le_trans (first r.time List.mem_cons_self) here,
      List.forall_mem_cons.mpr ⟨here, later⟩⟩

end LogRecord

open LogRecord

/-! ### Writing and reading -/

/-- A sink that is never full takes every record that can stand behind the one before it. -/
theorem LogWriter.writeAll_chain {writer : LogWriter} {records : List LogRecord}
    (room : writer.sink.room = none) (chain : Chain writer.previous records) :
    ∃ after, writer.writeAll records = (records, after) ∧
      after.sink.stored = writer.sink.stored ++ allBytes writer.previous records := by
  induction records generalizing writer with
  | nil => exact ⟨writer, rfl, (List.append_nil _).symm⟩
  | cons r records ih =>
    obtain ⟨follows, chain⟩ := chain
    obtain ⟨⟨stored, _⟩, previous, count⟩ := writer
    obtain rfl : _ = none := room
    have written : LogWriter.write ⟨⟨stored, none⟩, previous, count⟩ r.time r.message = _ :=
      write_follows follows rfl
    obtain ⟨after, all, content⟩ :=
      @ih ⟨⟨stored ++ r.bytes previous, none⟩, r.time, count + 1⟩ rfl chain
    refine ⟨after, ?_, ?_⟩
    · rw [writeAll, written, if_pos rfl]
      dsimp only
      rw [all]
    · rw [content, allBytes, List.append_assoc]

theorem LogReader.items_recording {source : Source} {sampleRate : UInt32} {records : List LogRecord}
    {limit : Nat} (unbroken : source.broken = false)
    (content : source.content = recording sampleRate records) (chain : Chain 0 records)
    (small : ∀ r ∈ records, r.message.length ≤ limit) :
    ∃ reader, openSource source = .ok reader ∧ reader.sampleRate = sampleRate ∧
      { reader with maxRecord := limit }.items = records.map .ok := by
  have front : source.content = logMagic ++ bigEndian 4 sampleRate.toNat ++ (allBytes 0 records ++ []) := by
    rw [content, recording, List.append_nil]
  obtain ⟨reader, opened, rate, ready⟩ := openSource_recording unbroken front
  have ready : At limit 0 (allBytes 0 records ++ []) { reader with maxRecord := limit } :=
    ⟨ready.content, ready.unbroken, ready.time, rfl, ready.going⟩
  have ending : Tail records (lastTime 0 records) [] := .none
  have items := items_at ready chain ending (List.Subset.refl _) small
  rw [cut, List.append_nil] at items
  exact ⟨reader, opened, rate, items⟩

end OscHost
