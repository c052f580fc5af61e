import OscHost.Proofs.Recording.Transcript

/-!
# Playing a recording back

A record is stored whole, or not at all, or its front is the last that its sink takes
(`LogWriter.write_cases`). So a recording is its header, the records whose writes succeeded, each with
the frames since the one before it, and perhaps the front of one more (`LogWriter.writeAll_stored`). A
reading follows these bytes record by record and comes to the same times (`LogReader.takeItems_at`).
-/

namespace OscHost

/-! ### The bytes of a recording -/

namespace LogRecord

/-- What a record takes in a recording if the record before it is at `previous`. -/
def bytes (previous : UInt64) (r : LogRecord) : List UInt8 :=
  bigEndian 4 (r.time - previous).toNat ++ bigEndian 4 r.message.length ++ r.message

/-- The record can stand behind one at `previous`. -/
structure Follows (previous : UInt64) (r : LogRecord) : Prop where
  wellFormed : ∃ m, Message.parse r.message = .ok m
  ordered : previous ≤ r.time
  near : (r.time - previous).toNat < UInt32.size
  word : r.message.length < UInt32.size

/-- What the records take one behind the other. -/
def allBytes (previous : UInt64) : List LogRecord → List UInt8
  | [] => []
  | r :: records => r.bytes previous ++ allBytes r.time records

def lastTime (previous : UInt64) : List LogRecord → UInt64
  | [] => previous
  | r :: records => lastTime r.time records

/-- Each of the records can stand behind the one before it. -/
def Chain (previous : UInt64) : List LogRecord → Prop
  | [] => True
  | r :: records => r.Follows previous ∧ Chain r.time records

/-- A recording that holds just these records. -/
def recording (sampleRate : UInt32) (records : List LogRecord) : List UInt8 :=
  logMagic ++ bigEndian 4 sampleRate.toNat ++ allBytes 0 records

/-- The rest of a recording behind its last whole record: nothing, or the front of one of the records
that were offered. -/
inductive Tail (offers : List LogRecord) (previous : UInt64) : List UInt8 → Prop where
  | none : Tail offers previous []
  | cut {r : LogRecord} {part : List UInt8} (offered : r ∈ offers) (follows : r.Follows previous)
      (front : part <+: r.bytes previous) (short : part.length < (r.bytes previous).length) :
      Tail offers previous part

theorem Tail.mono {offers more : List LogRecord} {previous : UInt64} {tail : List UInt8}
    (h : Tail offers previous tail) (sub : offers ⊆ more) : Tail more previous tail := by
  cases h with
  | none => exact .none
  | cut offered follows front short => exact .cut (sub offered) follows front short

end LogRecord

/-! ### Writing -/

open LogRecord

namespace LogWriter

variable {writer : LogWriter} {r : LogRecord}

theorem storeBoth_eq_store (sink : Sink) (first second : List UInt8) :
    storeBoth sink first second = sink.store (first ++ second) := by
  obtain ⟨stored, room⟩ := sink
  cases room with
  | none => simp [storeBoth, Sink.store]
  | some room =>
    rw [storeBoth, Sink.store, Sink.store]
    by_cases fits : first.length ≤ room
    · simp only [decide_eq_true fits, Sink.store, List.length_append, List.take_of_length_le fits,
        List.take_append, List.append_assoc, Nat.sub_sub, Prod.mk.injEq, and_true, decide_eq_decide]
      omega
    · have outside : room ≤ first.length := Nat.le_of_not_le fits
      have none : ¬first.length + second.length ≤ room := by omega
      simp only [decide_eq_false fits, List.length_append, decide_eq_false none,
        List.take_append_of_le_length outside, Prod.mk.injEq, true_and, Sink.mk.injEq, Option.some.injEq]
      omega

/-- A sink takes all of the bytes, or their front, and then nothing any more. -/
theorem store_cases (sink : Sink) (bytes : List UInt8) :
    (∃ after : Sink, sink.store bytes = (true, after) ∧ after.stored = sink.stored ++ bytes) ∨
      ∃ part, part <+: bytes ∧ part.length < bytes.length ∧
        sink.store bytes = (false, { stored := sink.stored ++ part, room := some 0 }) := by
  obtain ⟨stored, room⟩ := sink
  cases room with
  | none => exact .inl ⟨_, rfl, rfl⟩
  | some room =>
    by_cases fits : bytes.length ≤ room
    · refine .inl ⟨{ stored := stored ++ bytes, room := some (room - bytes.length) }, ?_, rfl⟩
      simp only [Sink.store, decide_eq_true fits, List.take_of_length_le fits]
    · refine .inr ⟨bytes.take room, List.take_prefix room bytes, ?_, ?_⟩
      · rw [List.length_take]
        omega
      · have gone : room - bytes.length = 0 := Nat.sub_eq_zero_of_le (Nat.le_of_not_le fits)
        simp only [Sink.store, decide_eq_false fits, gone]

/-- A record that cannot follow is refused, and nothing else happens. -/
theorem write_refused (refused : ¬r.Follows writer.previous) :
    ∃ error, (∀ io, error ≠ .io io) ∧ writer.write r.time r.message = (.error error, writer) := by
  rw [write]
  cases parsed : Message.parse r.message with
  | error error => exact ⟨.malformedRecord error, nofun, rfl⟩
  | ok m =>
    by_cases far : r.time < writer.previous ∨ UInt32.size ≤ (r.time - writer.previous).toNat
    · exact ⟨.recordTime r.time writer.previous, nofun, if_pos far⟩
    · obtain ⟨ordered, near⟩ := not_or.mp far
      have long : UInt32.size ≤ r.message.length := by
        refine Nat.le_of_not_lt fun word => refused ⟨⟨m, parsed⟩, ?_, Nat.lt_of_not_le near, word⟩
        exact UInt64.not_lt.mp ordered
      exact ⟨.recordTooLarge r.message.length, nofun, (if_neg far).trans (if_pos long)⟩

theorem write_follows {whole : Bool} {sink : Sink} (follows : r.Follows writer.previous)
    (stored : writer.sink.store (r.bytes writer.previous) = (whole, sink)) :
    writer.write r.time r.message =
      if whole then (.ok (), { sink, previous := r.time, records := writer.records + 1 })
      else (.error (.io .sinkFull), { writer with sink }) := by
  obtain ⟨⟨m, parsed⟩, ordered, near, word⟩ := follows
  have close : ¬(r.time < writer.previous ∨ UInt32.size ≤ (r.time - writer.previous).toNat) :=
    not_or.mpr ⟨UInt64.not_lt.mpr ordered, Nat.not_le.mpr near⟩
  rw [write, parsed]
  dsimp only
  rw [if_neg close, if_neg (Nat.not_le.mpr word), storeBoth_eq_store, ← LogRecord.bytes,
    stored]
  cases whole <;> rfl

/-- All that a write can do. -/
theorem write_cases (writer : LogWriter) (r : LogRecord) :
    (∃ error, writer.write r.time r.message = (.error error, writer)) ∨
      r.Follows writer.previous ∧
        ((∃ after, writer.write r.time r.message = (.ok (), after) ∧ after.previous = r.time ∧
            after.records = writer.records + 1 ∧
            after.sink.stored = writer.sink.stored ++ r.bytes writer.previous) ∨
          ∃ part, part <+: r.bytes writer.previous ∧ part.length < (r.bytes writer.previous).length ∧
            writer.write r.time r.message = (.error (.io .sinkFull),
              { writer with sink := { stored := writer.sink.stored ++ part, room := some 0 } })) := by
  by_cases follows : r.Follows writer.previous
  · refine .inr ⟨follows, ?_⟩
    rcases store_cases writer.sink (r.bytes writer.previous) with
      ⟨after, stored, all⟩ | ⟨part, front, short, stored⟩
    · exact .inl ⟨_, write_follows follows stored, rfl, rfl, all⟩
    · exact .inr ⟨part, front, short, write_follows follows stored⟩
  · obtain ⟨error, -, same⟩ := write_refused follows
    exact .inl ⟨error, same⟩

/-- Write the records one after the other. The answer holds those whose write succeeded. -/
def writeAll (writer : LogWriter) : List LogRecord → List LogRecord × LogWriter
  | [] => ([], writer)
  | r :: offers =>
    match writer.write r.time r.message with
    | (.ok (), writer) =>
      let (kept, writer) := writer.writeAll offers
      (r :: kept, writer)
    | (.error _, writer) => writer.writeAll offers

theorem create_cases (room : Option Nat) (sampleRate : UInt32) :
    (∃ sink, create { room } sampleRate = (.ok { sink }, sink) ∧
        sink.stored = logMagic ++ bigEndian 4 sampleRate.toNat) ∨
      ∃ sink, create { room } sampleRate = (.error (.io .sinkFull), sink) ∧ sink.stored.length < 12 := by
  rw [create, storeBoth_eq_store]
  rcases store_cases { room } (logMagic ++ bigEndian 4 sampleRate.toNat) with
    ⟨sink, stored, all⟩ | ⟨part, -, short, stored⟩
  · rw [stored]
    exact .inl ⟨sink, rfl, all⟩
  · have header : (logMagic ++ bigEndian 4 sampleRate.toNat).length = 12 := by
      rw [List.length_append, length_bigEndian]
      decide
    rw [header] at short
    rw [stored]
    exact .inr ⟨_, rfl, short⟩

theorem write_full (full : writer.sink.room = some 0) (r : LogRecord) :
    ∃ error, writer.write r.time r.message = (.error error, writer) := by
  rcases write_cases writer r with refused | ⟨follows, -⟩
  · exact refused
  · obtain ⟨⟨stored, room⟩, previous, records⟩ := writer
    obtain rfl : room = some 0 := full
    have long : ¬(r.bytes previous).length ≤ 0 := by
      simp only [LogRecord.bytes, List.length_append, length_bigEndian]
      omega
    have nothing : Sink.store { stored, room := some 0 } (r.bytes previous) =
        (false, { stored, room := some 0 }) := by
      simp only [Sink.store, decide_eq_false long, List.take_zero, List.append_nil, Nat.zero_sub]
    exact ⟨.io .sinkFull, write_follows follows nothing⟩

theorem writeAll_full (full : writer.sink.room = some 0) (offers : List LogRecord) :
    writer.writeAll offers = ([], writer) := by
  induction offers with
  | nil => rfl
  | cons r offers ih =>
    obtain ⟨error, same⟩ := write_full full r
    rw [writeAll, same]
    exact ih

/-- Behind what a writer has stored come the records whose writes succeed, and what a full sink could
still take of one more. -/
theorem writeAll_stored (writer : LogWriter) (offers : List LogRecord) :
    ∃ kept after tail, writer.writeAll offers = (kept, after) ∧
      after.sink.stored = writer.sink.stored ++ allBytes writer.previous kept ++ tail ∧
      after.records = writer.records + kept.length ∧ kept ⊆ offers ∧
      Chain writer.previous kept ∧ Tail offers (lastTime writer.previous kept) tail := by
  induction offers generalizing writer with
  | nil =>
    exact ⟨[], writer, [], rfl, by simp [allBytes], rfl, List.Subset.refl _, trivial, .none⟩
  | cons r offers ih =>
    have more : offers ⊆ r :: offers := List.subset_cons_self r offers
    rcases write_cases writer r with ⟨error, same⟩ | ⟨follows, ⟨next, written, time, records, stored⟩ |
      ⟨part, front, short, written⟩⟩
    · obtain ⟨kept, after, tail, all, stored, count, sub, chain, rest⟩ := ih writer
      refine ⟨kept, after, tail, ?_, stored, count, fun x hx => more (sub hx), chain, rest.mono more⟩
      rw [writeAll, same]
      exact all
    · obtain ⟨kept, after, tail, all, onwards, count, sub, chain, rest⟩ := ih next
      rw [time] at onwards chain rest
      refine ⟨r :: kept, after, tail, ?_, ?_, ?_, List.cons_subset_cons r sub, ⟨follows, chain⟩,
        rest.mono more⟩
      · rw [writeAll, written]
        dsimp only
        rw [all]
      · rw [onwards, stored, allBytes]
        simp only [List.append_assoc]
      · rw [count, records, List.length_cons]
        omega
    · let sink : Sink := { stored := writer.sink.stored ++ part, room := some 0 }
      refine ⟨[], { writer with sink }, part, ?_, ?_, rfl, List.nil_subset _, trivial,
        .cut List.mem_cons_self follows front short⟩
      · rw [writeAll, written]
        exact writeAll_full rfl offers
      · rw [allBytes, List.append_nil]

end LogWriter

/-! ### Reading -/

namespace LogReader

/-- The reader has come to `time`, takes records of the given size, and has `content` in front of
it. -/
structure At (limit : Nat) (time : UInt64) (content : List UInt8) (reader : LogReader) : Prop where
  content : reader.source.content = content
  unbroken : reader.source.broken = false
  time : reader.time = time
  limit : reader.maxRecord = limit
  going : reader.failed = false

variable {reader : LogReader} {limit : Nat} {time : UInt64} {r : LogRecord} {rest : List UInt8}

theorem At.before {content : List UInt8} (ready : At limit time content reader) :
    Before limit false time content reader :=
  ⟨ready.content, ready.unbroken, ready.time, ready.limit, ready.going⟩

theorem openSource_recording {source : Source} {sampleRate : UInt32} (unbroken : source.broken = false)
    (content : source.content = logMagic ++ bigEndian 4 sampleRate.toNat ++ rest) :
    ∃ reader, openSource source = .ok reader ∧ reader.sampleRate = sampleRate ∧
      At reader.maxRecord 0 rest reader := by
  obtain ⟨reader, opened, rate, ready⟩ := openSource_content content
  exact ⟨reader, opened, rate, ready.content, ready.broken.trans unbroken, ready.time, ready.limit, ready.going⟩

theorem openSource_short {source : Source} (unbroken : source.broken = false)
    (short : source.content.length < 12) : openSource source = .error .badMagic := by
  obtain ⟨after, filled, -, same⟩ := source.fill_eq 12
  rw [List.take_of_length_le (Nat.le_of_lt short)] at filled
  rw [openSource, filled]
  dsimp only
  rw [if_pos short, same, unbroken]
  rfl

/-- What a reading comes to behind the last whole record. -/
def cut : List UInt8 → List (Except LogError LogRecord)
  | [] => []
  | tail => [.error (.io (if tail.length < 8 then .headerCut else .bodyCut))]

theorem cut_of_ne_nil {tail : List UInt8} (some : tail ≠ []) :
    cut tail = [.error (.io (if tail.length < 8 then .headerCut else .bodyCut))] := by
  cases tail with
  | nil => exact absurd rfl some
  | cons byte tail => rfl

/-- Records as they are stored one behind the other. -/
def allStored (previous : UInt64) : List LogRecord → List StoredRecord
  | [] => []
  | r :: records => ⟨UInt32.ofNat (r.time - previous).toNat, r.message⟩ :: allStored r.time records

section

variable {previous : UInt64} {records : List LogRecord}

theorem flatMap_allStored (chain : Chain previous records) :
    (allStored previous records).flatMap StoredRecord.bytes = allBytes previous records := by
  induction records generalizing previous with
  | nil => rfl
  | cons r records ih =>
    obtain ⟨follows, chain⟩ := chain
    rw [allStored, List.flatMap_cons, ih chain, StoredRecord.bytes, UInt32.toNat_ofNat_of_lt' follows.near]
    rfl

theorem small_allStored (chain : Chain previous records) (small : ∀ r ∈ records, r.message.length ≤ limit) :
    ∀ r ∈ allStored previous records, r.message.length ≤ limit ∧ r.message.length < UInt32.size := by
  induction records generalizing previous with
  | nil => nofun
  | cons r records ih =>
    obtain ⟨follows, chain⟩ := chain
    obtain ⟨fits, rest⟩ := List.forall_mem_cons.mp small
    exact List.forall_mem_cons.mpr ⟨⟨fits, follows.word⟩, ih chain rest⟩

/-- Records that were written come out with the times that they were given. -/
theorem outcomes_allStored (chain : Chain previous records) {start : Nat} (reached : UInt64.ofNat start = previous) :
    StoredRecord.outcomes start (allStored previous records) = records.map .ok := by
  induction records generalizing previous start with
  | nil => rfl
  | cons r records ih =>
    obtain ⟨follows, chain⟩ := chain
    obtain ⟨m, parsed⟩ := follows.wellFormed
    have time : UInt64.ofNat (start + (UInt32.ofNat (r.time - previous).toNat).toNat) = r.time := by
      rw [UInt64.ofNat_add, reached, UInt32.toNat_ofNat_of_lt' follows.near, UInt64.ofNat_toNat, UInt64.add_comm,
        UInt64.sub_add_cancel]
    rw [allStored, StoredRecord.outcomes, ih chain time, time, StoredRecord.outcome]
    simp only [parsed, List.map_cons]

end

/-- The rest of a recording behind its last whole record is no record. -/
theorem ending_of_tail {offers : List LogRecord} {previous : UInt64} {tail : List UInt8}
    (behind : Tail offers previous tail) (small : ∀ r ∈ offers, r.message.length ≤ limit) :
    Ending limit false tail (cut tail) := by
  cases behind with
  | none => exact .clean rfl
  | @cut r _ offered follows front short =>
    by_cases inside : tail.length < 8
    · by_cases none : tail = []
      · rw [none]
        exact .clean rfl
      · rw [cut_of_ne_nil none, if_pos inside]
        exact .header (.inl none) inside
    · -- The header is whole, so it is the message that is not.
      have header : (bigEndian 4 (r.time - previous).toNat ++ bigEndian 4 r.message.length).length = 8 := by
        rw [List.length_append, length_bigEndian, length_bigEndian]
      have some : tail ≠ [] := fun none => inside (by rw [none]; decide)
      rw [cut_of_ne_nil some, if_neg inside]
      obtain ⟨body, rfl⟩ :
          bigEndian 4 (r.time - previous).toNat ++ bigEndian 4 r.message.length <+: tail :=
        List.prefix_of_prefix_length_le (List.prefix_append _ r.message) front (by omega)
      have less : body.length < r.message.length := by
        simp only [LogRecord.bytes, List.length_append] at short
        omega
      exact .body follows.word (small r offered) less

/-- What a reader with a recording in front of it gives are the records, and then an error if there
is more than the records take. -/
theorem takeItems_at {offers records : List LogRecord} {tail : List UInt8}
    (ready : At limit time (allBytes time records ++ tail) reader) (chain : Chain time records)
    (behind : Tail offers (lastTime time records) tail) (sub : records ⊆ offers)
    (small : ∀ r ∈ offers, r.message.length ≤ limit) (count : Nat) :
    reader.takeItems count = (records.map Except.ok ++ cut tail).take count := by
  have start : UInt64.ofNat time.toNat = time := UInt64.ofNat_toNat
  have fits := small_allStored chain fun r member => small r (sub member)
  have before : Before limit false (UInt64.ofNat time.toNat)
      ((allStored time records).flatMap StoredRecord.bytes ++ tail) reader := by
    rw [flatMap_allStored chain, start]
    exact ready.before
  obtain ⟨after, yields⟩ := yields_records fits (ending_of_tail behind small) before
  rw [takeItems_of_yields yields, outcomes_allStored chain start]

theorem length_allBytes (previous : UInt64) (records : List LogRecord) :
    8 * records.length ≤ (allBytes previous records).length := by
  induction records generalizing previous with
  | nil => exact Nat.zero_le _
  | cons r records ih =>
    have onwards := ih r.time
    simp only [allBytes, bytes, List.length_append, List.length_cons, length_bigEndian]
    omega

theorem length_cut (tail : List UInt8) : (cut tail).length ≤ 1 := by
  cases tail <;> simp [cut]

/-- As many items are asked for as there can be. -/
theorem items_at {offers records : List LogRecord} {tail : List UInt8}
    (ready : At limit time (allBytes time records ++ tail) reader) (chain : Chain time records)
    (behind : Tail offers (lastTime time records) tail) (sub : records ⊆ offers)
    (small : ∀ r ∈ offers, r.message.length ≤ limit) :
    reader.items = records.map .ok ++ cut tail := by
  rw [items, takeItems_at ready chain behind sub small]
  apply List.take_of_length_le
  have content := length_allBytes time records
  have last := length_cut tail
  rw [ready.content, List.length_append, List.length_append, List.length_map]
  omega

end LogReader

/-! ### The round trip -/

/-- What was recorded up to where the sink was full is played back with the same sample rate, the same
times and the same messages, in whatever pieces it is read, and an I/O error comes last just if the
front of one more record was stored. If not even the header was stored, there is no recording to open.
A record that cannot follow leaves the writer as it was. -/
theorem play_back (room : Option Nat) (sampleRate : UInt32) (offers : List LogRecord) (limit : Nat)
    (small : ∀ r ∈ offers, r.message.length ≤ limit) :
    (∀ error sink, LogWriter.create { room } sampleRate = (.error error, sink) →
      ∀ source : Source, source.broken = false → source.content = sink.stored →
        LogReader.openSource source = .error .badMagic) ∧
    (∀ writer sink, LogWriter.create { room } sampleRate = (.ok writer, sink) →
      ∃ kept after tail, writer.writeAll offers = (kept, after) ∧ after.records = kept.length ∧
        after.sink.stored = recording sampleRate kept ++ tail ∧
        Tail offers (lastTime 0 kept) tail ∧
        ∀ source : Source, source.broken = false → source.content = after.sink.stored →
          ∃ reader, LogReader.openSource source = .ok reader ∧ reader.sampleRate = sampleRate ∧
            { reader with maxRecord := limit }.items = kept.map .ok ++ LogReader.cut tail ∧
            ∀ count, { reader with maxRecord := limit }.takeItems count =
              (kept.map Except.ok ++ LogReader.cut tail).take count) ∧
    ∀ (writer : LogWriter) (r : LogRecord), ¬r.Follows writer.previous →
      ∃ error, (∀ io, error ≠ .io io) ∧
        writer.write r.time r.message = (.error error, writer) := by
  refine ⟨?_, ?_, fun writer r refused => LogWriter.write_refused refused⟩
  · intro error sink failed source unbroken content
    rcases LogWriter.create_cases room sampleRate with ⟨sink', created, -⟩ | ⟨sink', created, short⟩
    · cases created.symm.trans failed
    · cases created.symm.trans failed
      rw [← content] at short
      exact LogReader.openSource_short unbroken short
  · intro writer sink created
    rcases LogWriter.create_cases room sampleRate with ⟨sink', created', header⟩ | ⟨sink', failed, -⟩
    · cases created'.symm.trans created
      obtain ⟨kept, after, tail, all, stored, count, sub, chain, behind⟩ :=
        LogWriter.writeAll_stored { sink } offers
      have whole : after.sink.stored = recording sampleRate kept ++ tail := by
        rw [stored, header, recording]
      refine ⟨kept, after, tail, all, count.trans (Nat.zero_add _), whole, behind, ?_⟩
      intro source unbroken content
      rw [whole, recording, List.append_assoc] at content
      obtain ⟨reader, opened, rate, ready⟩ := LogReader.openSource_recording unbroken content
      have ready : LogReader.At limit 0 (allBytes 0 kept ++ tail) { reader with maxRecord := limit } :=
        ⟨ready.content, ready.unbroken, ready.time, rfl, ready.going⟩
      exact ⟨reader, opened, rate, LogReader.items_at ready chain behind sub small,
        LogReader.takeItems_at ready chain behind sub small⟩
    · cases failed.symm.trans created

/-- A sink of fifty bytes has room for two records and the front of a third. Between them two records
were refused. -/
theorem play_back_fifty :
    let message : List UInt8 := utf8 "/a" ++ [0, 0] ++ utf8 "," ++ [0, 0, 0]
    let offers : List LogRecord :=
      [⟨5, message⟩, ⟨6, [1]⟩, ⟨4, message⟩, ⟨7, message⟩, ⟨9, message⟩, ⟨10, message⟩]
    (∀ r ∈ offers, r.message.length ≤ 8) ∧
      ∃ writer sink reader, LogWriter.create { room := some 50 } 48000 = (.ok writer, sink) ∧
        LogReader.openSource (.ofBytes (writer.writeAll offers).2.sink.stored 3 none) = .ok reader ∧
        { reader with maxRecord := 8 }.items =
          [.ok ⟨5, message⟩, .ok ⟨7, message⟩, .error (.io .headerCut)] := by
  intro message offers
  have small : ∀ r ∈ offers, r.message.length ≤ 8 := by decide
  obtain ⟨-, plays, -⟩ := play_back (some 50) 48000 offers 8 small
  obtain ⟨kept, after, tail, all, -, stored, -, reads⟩ := plays _ _ rfl
  obtain rfl : kept = [⟨5, message⟩, ⟨7, message⟩] :=
    (congrArg Prod.fst all).symm.trans (by decide +kernel)
  have length : after.sink.stored.length = 50 :=
    (congrArg (·.2.sink.stored.length) all).symm.trans (by decide +kernel)
  have short : tail.length = 6 := by
    rw [stored, List.length_append] at length
    exact Nat.add_left_cancel length
  obtain ⟨reader, opened, -, items, -⟩ :=
    reads (.ofBytes after.sink.stored 3 none) rfl (Source.content_ofBytes _ 2)
  refine ⟨small, _, _, reader, rfl, ?_, ?_⟩
  · rw [all]
    exact opened
  · rw [items]
    cases tail with
    | nil => cases short
    | cons byte tail =>
      simp only [LogReader.cut, short]
      rfl

end OscHost
