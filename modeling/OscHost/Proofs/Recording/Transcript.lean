import OscHost.Recording.LogReader
import OscHost.Proofs.Iteration
import OscHost.Proofs.Wire.Steps

/-!
# Reading any recording

Whatever stands behind the header of a recording, it is complete records one behind the other and then a part
that is none (`Division`). A reader gives one item for each record, whether its message is well formed or not,
then at most one error, and then nothing any more (`LogReader.yields_records`). Only the bytes matter, and whether the
source fails behind them, not the pieces in which they come.
-/

namespace OscHost

/-! ### The bytes of a recording -/

/-- A record as it stands in a recording. Its message need not be well formed. -/
structure StoredRecord where
  gap : UInt32
  message : List UInt8
  deriving DecidableEq, Repr

namespace StoredRecord

def bytes (r : StoredRecord) : List UInt8 :=
  bigEndian 4 r.gap.toNat ++ bigEndian 4 r.message.length ++ r.message

theorem length_bytes (r : StoredRecord) : r.bytes.length = 8 + r.message.length := by
  simp only [bytes, List.length_append, length_bigEndian]

/-- What a reading makes of a record at this time. -/
def outcome (r : StoredRecord) (time : UInt64) : Except LogError LogRecord :=
  match Message.parse r.message with
  | .error error => .error (.malformedRecord error)
  | .ok _ => .ok { time, message := r.message }

/-- Frames from the start of the recording to the last of the records. -/
def elapsed (records : List StoredRecord) : Nat := total (records.map fun r => r.gap.toNat)

/-- What a reading makes of records that follow at this time. -/
def outcomes (time : Nat) : List StoredRecord → List (Except LogError LogRecord)
  | [] => []
  | r :: records =>
    r.outcome (UInt64.ofNat (time + r.gap.toNat)) :: outcomes (time + r.gap.toNat) records

end StoredRecord

/-- What a reading makes of bytes that do not start with a complete record. A source that fails behind its
bytes has no clean end. -/
inductive Ending (limit : Nat) (broken : Bool) : List UInt8 → List (Except LogError LogRecord) → Prop where
  | clean (whole : broken = false) : Ending limit broken [] []
  | header {part : List UInt8} (cut : part ≠ [] ∨ broken = true) (short : part.length < 8) :
      Ending limit broken part [.error (.io (if broken then .denied else .headerCut))]
  | tooLarge {gap size : Nat} {rest : List UInt8} (word : size < UInt32.size) (large : limit < size) :
      Ending limit broken (bigEndian 4 gap ++ bigEndian 4 size ++ rest) [.error (.recordTooLarge size)]
  | body {gap size : Nat} {rest : List UInt8} (word : size < UInt32.size) (small : size ≤ limit)
      (short : rest.length < size) :
      Ending limit broken (bigEndian 4 gap ++ bigEndian 4 size ++ rest)
        [.error (.io (if broken then .denied else .bodyCut))]

/-- Complete records one behind the other, and what is left behind the last of them. -/
structure Division (limit : Nat) (broken : Bool) (content : List UInt8) where
  records : List StoredRecord
  tail : List UInt8
  last : List (Except LogError LogRecord)
  whole : records.flatMap StoredRecord.bytes ++ tail = content
  small : ∀ r ∈ records, r.message.length ≤ limit ∧ r.message.length < UInt32.size
  ending : Ending limit broken tail last

/-- What a reading makes of the whole. -/
def Division.items {limit : Nat} {broken : Bool} {content : List UInt8} (d : Division limit broken content) :
    List (Except LogError LogRecord) := StoredRecord.outcomes 0 d.records ++ d.last

theorem exists_word {bytes : List UInt8} (four : bytes.length = 4) :
    ∃ n, n < UInt32.size ∧ bigEndian 4 n = bytes := by
  have fits := ofBigEndian_lt bytes
  have same := bigEndian_ofBigEndian bytes
  rw [four] at fits same
  exact ⟨_, fits, same⟩

theorem exists_header {content : List UInt8} (long : 8 ≤ content.length) :
    ∃ (gap : UInt32) (size : Nat), size < UInt32.size ∧
      bigEndian 4 gap.toNat ++ bigEndian 4 size ++ content.drop 8 = content := by
  have four : (content.take 4).length = 4 := by
    rw [List.length_take]
    omega
  have four' : ((content.drop 4).take 4).length = 4 := by
    rw [List.length_take, List.length_drop]
    omega
  obtain ⟨gap, fits, first⟩ := exists_word four
  obtain ⟨size, word, second⟩ := exists_word four'
  refine ⟨UInt32.ofNat gap, size, word, ?_⟩
  have behind : content.drop 8 = (content.drop 4).drop 4 := by rw [List.drop_drop]
  rw [UInt32.toNat_ofNat_of_lt' fits, first, second, behind, List.append_assoc, List.take_append_drop,
    List.take_append_drop]

/-- There is a complete record in front, or none. -/
theorem front_cases (limit : Nat) (broken : Bool) (content : List UInt8) :
    (∃ (r : StoredRecord) (rest : List UInt8), r.bytes ++ rest = content ∧ r.message.length ≤ limit ∧
      r.message.length < UInt32.size) ∨ ∃ last, Ending limit broken content last := by
  by_cases long : 8 ≤ content.length
  · obtain ⟨gap, size, word, whole⟩ := exists_header long
    by_cases large : limit < size
    · rw [← whole]
      exact .inr ⟨_, .tooLarge word large⟩
    · have small := Nat.le_of_not_lt large
      by_cases short : (content.drop 8).length < size
      · rw [← whole]
        exact .inr ⟨_, .body word small short⟩
      · have inside : ((content.drop 8).take size).length = size :=
          List.length_take_of_le (Nat.le_of_not_lt short)
        refine .inl ⟨⟨gap, (content.drop 8).take size⟩, (content.drop 8).drop size, ?_, ?_, ?_⟩
        · rw [StoredRecord.bytes, inside, List.append_assoc, List.take_append_drop, whole]
        · rw [inside]
          exact small
        · rw [inside]
          exact word
  · by_cases clean : content = [] ∧ broken = false
    · obtain ⟨rfl, whole⟩ := clean
      exact .inr ⟨[], .clean whole⟩
    · refine .inr ⟨_, .header ?_ (Nat.lt_of_not_le long)⟩
      by_cases none : content = []
      · exact .inr (by simpa [none] using clean)
      · exact .inl none

theorem exists_division (limit : Nat) (broken : Bool) (content : List UInt8) :
    Nonempty (Division limit broken content) := by
  induction length : content.length using Nat.strongRecOn generalizing content with
  | ind bound ih =>
    rcases front_cases limit broken content with ⟨r, rest, rfl, small, word⟩ | ⟨last, ending⟩
    · rw [List.length_append, r.length_bytes] at length
      obtain ⟨d⟩ := ih rest.length (by omega) rest rfl
      refine ⟨r :: d.records, d.tail, d.last, ?_, List.forall_mem_cons.mpr ⟨⟨small, word⟩, d.small⟩, d.ending⟩
      rw [List.flatMap_cons, List.append_assoc, d.whole]
    · exact ⟨[], content, last, rfl, nofun, ending⟩

/-! ### Reading -/

namespace Source

/-- A source that is asked for more than it has is used up. -/
theorem gather_short {count : Nat} {deliveries : List Delivery}
    (short : (deliveries.flatMap Delivery.content).length < count) : (gather count deliveries).2 = [] := by
  fun_induction gather count deliveries with
  | case1 => exact absurd short (Nat.not_lt_zero _)
  | case2 => rfl
  | case3 count rest ih => exact ih (by simpa [Delivery.content] using short)
  | case4 count first more rest next left enough =>
    have inside := congrArg List.length enough
    simp only [List.length_drop, List.length_cons, List.flatMap_cons, Delivery.content, List.cons_append,
      List.length_append] at inside short
    omega
  | case5 count first more rest less got left read ih =>
    rw [read] at ih
    apply ih
    simp only [List.flatMap_cons, Delivery.content, List.cons_append, List.length_cons,
      List.length_append] at short
    omega

theorem fill_short {source : Source} {count : Nat} (short : source.content.length < count) :
    source.fill count = (source.content, { source with deliveries := [] }) := by
  have all : (gather count source.deliveries).1 = source.content.take count :=
    gather_eq_take count source.deliveries
  rw [List.take_of_length_le (Nat.le_of_lt short)] at all
  exact Prod.ext all (congrArg (Source.mk · source.broken) (gather_short short))

end Source

namespace LogReader

/-- A reader that goes on at `time`, in front of `content`. -/
structure Before (limit : Nat) (broken : Bool) (time : UInt64) (content : List UInt8) (reader : LogReader) :
    Prop where
  content : reader.source.content = content
  broken : reader.source.broken = broken
  time : reader.time = time
  limit : reader.maxRecord = limit
  going : reader.failed = false

variable {reader : LogReader} {limit : Nat} {broken : Bool} {time : UInt64}

theorem openSource_content {source : Source} {sampleRate : UInt32} {content : List UInt8}
    (whole : source.content = logMagic ++ bigEndian 4 sampleRate.toNat ++ content) :
    ∃ reader, openSource source = .ok reader ∧ reader.sampleRate = sampleRate ∧
      Before reader.maxRecord source.broken 0 content reader := by
  obtain ⟨after, filled, left, same⟩ := source.fill_eq 12
  have header : (logMagic ++ bigEndian 4 sampleRate.toNat).length = 12 := by
    rw [List.length_append, length_bigEndian]
    decide
  rw [whole, List.take_left' header] at filled
  rw [whole, List.drop_left' header] at left
  have rate : UInt32.ofNat (ofBigEndian (bigEndian 4 sampleRate.toNat)) = sampleRate := by
    rw [ofBigEndian_of_lt sampleRate.toNat_lt, UInt32.ofNat_toNat]
  have magic : (logMagic ++ bigEndian 4 sampleRate.toNat).take 8 = logMagic := List.take_left' (by decide)
  refine ⟨{ source := after, sampleRate }, ?_, rfl, left, same, rfl, rfl, rfl⟩
  rw [openSource, filled]
  simp only [header, magic, Nat.lt_irrefl, ne_eq, not_true_eq_false, ↓reduceIte]
  rw [List.drop_left' (by decide), rate]

theorem next_failed (failed : reader.failed = true) : reader.next = (none, reader) := by
  rw [next, if_pos failed]

/-- An error that ends a reading. -/
theorem yields_error {after : LogReader} {error : LogError} (going : reader.failed = false)
    (malformed : ∀ e, error ≠ .malformedRecord e) (read : reader.readRecord = (.error error, after)) :
    Yields next reader [.error error] { after with failed := true } := by
  have silent : next { after with failed := true } = (none, { after with failed := true }) := next_failed rfl
  have called : reader.next = (some (.error error), { after with failed := true }) := by
    rw [next, going, read]
    cases error with
    | malformedRecord e => exact absurd rfl (malformed e)
    | _ => rfl
  exact .item called (.done silent silent)

theorem fill_header {gap size : Nat} {body : List UInt8} (word : size < UInt32.size)
    (ready : Before limit broken time (bigEndian 4 gap ++ bigEndian 4 size ++ body) reader) :
    ∃ header source, reader.source.fill 8 = (header, source) ∧ header.length = 8 ∧
      header.take 4 = bigEndian 4 gap ∧ ofBigEndian (header.drop 4) = size ∧ source.content = body ∧
      source.broken = broken := by
  obtain ⟨source, filled, left, same⟩ := reader.source.fill_eq 8
  have header : (bigEndian 4 gap ++ bigEndian 4 size).length = 8 := by simp
  rw [ready.content, List.take_left' header] at filled
  rw [ready.content, List.drop_left' header] at left
  refine ⟨_, source, filled, header, List.take_left' (length_bigEndian 4 gap), ?_, left,
    same.trans ready.broken⟩
  rw [List.drop_left' (length_bigEndian 4 gap), ofBigEndian_of_lt word]

theorem readRecord_tooLarge {gap size : Nat} {body : List UInt8} (word : size < UInt32.size)
    (large : limit < size)
    (ready : Before limit broken time (bigEndian 4 gap ++ bigEndian 4 size ++ body) reader) :
    ∃ after, reader.readRecord = (.error (.recordTooLarge size), after) := by
  obtain ⟨header, source, filled, eight, -, announced, -⟩ := fill_header word ready
  refine ⟨{ reader with source }, ?_⟩
  simp [readRecord, filled, eight, announced, ready.limit, large]

theorem readRecord_cutBody {gap size : Nat} {body : List UInt8} (word : size < UInt32.size)
    (small : size ≤ limit) (short : body.length < size)
    (ready : Before limit broken time (bigEndian 4 gap ++ bigEndian 4 size ++ body) reader) :
    ∃ after, reader.readRecord = (.error (.io (if broken then .denied else .bodyCut)), after) := by
  obtain ⟨header, source, filled, eight, -, announced, left, same⟩ := fill_header word ready
  rw [← left] at short
  refine ⟨{ reader with source := { source with deliveries := [] } }, ?_⟩
  simp [readRecord, filled, eight, announced, ready.limit, Nat.not_lt.mpr small, Source.fill_short short, short,
    same]

theorem readRecord_stored {r : StoredRecord} {rest : List UInt8} (small : r.message.length ≤ limit)
    (word : r.message.length < UInt32.size) (ready : Before limit broken time (r.bytes ++ rest) reader) :
    ∃ after, Before limit broken (time + UInt64.ofNat r.gap.toNat) rest after ∧
      reader.readRecord = ((r.outcome (time + UInt64.ofNat r.gap.toNat)).map some, after) := by
  rw [StoredRecord.bytes, List.append_assoc] at ready
  obtain ⟨header, source, filled, eight, first, announced, left, same⟩ := fill_header word ready
  obtain ⟨behind, taken, left', same'⟩ := source.fill_eq r.message.length
  rw [left, List.take_left] at taken
  rw [left, List.drop_left] at left'
  have gap : ofBigEndian (header.take 4) = r.gap.toNat := by
    rw [first, ofBigEndian_of_lt r.gap.toNat_lt]
  refine ⟨{ reader with source := behind, time := time + UInt64.ofNat r.gap.toNat },
    ⟨left', same'.trans same, rfl, ready.limit, ready.going⟩, ?_⟩
  unfold StoredRecord.outcome readRecord
  simp only [filled, eight, announced, ready.limit, Nat.not_lt.mpr small, taken, gap, ready.time, Nat.lt_irrefl,
    ↓reduceIte]
  cases Message.parse r.message with
  | error e => rfl
  | ok m => rfl

/-- The reader with its source used up. -/
def drained (reader : LogReader) : LogReader := { reader with source := { reader.source with deliveries := [] } }

theorem readRecord_end (ready : Before limit false time [] reader) :
    reader.readRecord = (.ok none, reader.drained) := by
  have filled : reader.source.fill 8 = (reader.source.content, _) :=
    Source.fill_short (by rw [ready.content]; decide)
  rw [ready.content] at filled
  simp [readRecord, filled, ready.broken, drained]

theorem readRecord_cutHeader {part : List UInt8} (cut : part ≠ [] ∨ broken = true) (short : part.length < 8)
    (ready : Before limit broken time part reader) :
    reader.readRecord = (.error (.io (if broken then .denied else .headerCut)), reader.drained) := by
  have filled : reader.source.fill 8 = (reader.source.content, _) :=
    Source.fill_short (by rw [ready.content]; exact short)
  rw [ready.content] at filled
  cases broken with
  | true => simp [readRecord, filled, short, ready.broken, drained]
  | false =>
    have some : part ≠ [] := cut.resolve_right nofun
    simp [readRecord, filled, short, ready.broken, drained, some]

theorem yields_ending {tail : List UInt8} {last : List (Except LogError LogRecord)}
    (ending : Ending limit broken tail last) (ready : Before limit broken time tail reader) :
    ∃ after, Yields next reader last after := by
  cases ending with
  | clean whole =>
    subst whole
    have stops (reader : LogReader) (ready : Before limit false time [] reader) :
        reader.next = (none, reader.drained) := by
      rw [next, ready.going, readRecord_end ready]
      rfl
    have drained : Before limit false time [] reader.drained :=
      ⟨rfl, ready.broken, ready.time, ready.limit, ready.going⟩
    exact ⟨_, .done (stops _ ready) (stops _ drained)⟩
  | header cut short => exact ⟨_, yields_error ready.going nofun (readRecord_cutHeader cut short ready)⟩
  | tooLarge word large =>
    obtain ⟨after, read⟩ := readRecord_tooLarge word large ready
    exact ⟨_, yields_error ready.going nofun read⟩
  | body word small short =>
    obtain ⟨after, read⟩ := readRecord_cutBody word small short ready
    exact ⟨_, yields_error ready.going nofun read⟩

/-- A malformed message is an item like others, and the reading goes on behind it. -/
theorem next_stored {r : StoredRecord} {rest : List UInt8} (small : r.message.length ≤ limit)
    (word : r.message.length < UInt32.size) (ready : Before limit broken time (r.bytes ++ rest) reader) :
    ∃ after, Before limit broken (time + UInt64.ofNat r.gap.toNat) rest after ∧
      reader.next = (some (r.outcome (time + UInt64.ofNat r.gap.toNat)), after) := by
  obtain ⟨after, ready', read⟩ := readRecord_stored small word ready
  refine ⟨after, ready', ?_⟩
  rw [next, ready.going, read]
  unfold StoredRecord.outcome
  cases Message.parse r.message with
  | error e => rfl
  | ok m => rfl

theorem yields_records {records : List StoredRecord} {tail : List UInt8}
    {last : List (Except LogError LogRecord)} {elapsed : Nat}
    (small : ∀ r ∈ records, r.message.length ≤ limit ∧ r.message.length < UInt32.size)
    (ending : Ending limit broken tail last)
    (ready : Before limit broken (UInt64.ofNat elapsed) (records.flatMap StoredRecord.bytes ++ tail) reader) :
    ∃ after, Yields next reader (StoredRecord.outcomes elapsed records ++ last) after := by
  induction records generalizing reader elapsed with
  | nil => exact yields_ending ending ready
  | cons r records ih =>
    obtain ⟨⟨fits, word⟩, rest⟩ := List.forall_mem_cons.mp small
    rw [List.flatMap_cons, List.append_assoc] at ready
    obtain ⟨between, ready, called⟩ := next_stored fits word ready
    rw [← UInt64.ofNat_add] at ready called
    obtain ⟨after, onwards⟩ := ih rest ready
    exact ⟨after, .item called onwards⟩

theorem takeItems_of_yields {reader after : LogReader} {items : List (Except LogError LogRecord)}
    (yields : Yields next reader items after) (count : Nat) : reader.takeItems count = items.take count := by
  induction yields generalizing count with
  | done stops silent =>
    cases count with
    | zero => rfl
    | succ count => rw [takeItems, stops, List.take_nil]
  | item called onwards ih =>
    cases count with
    | zero => rfl
    | succ count => rw [takeItems, called, List.take_succ_cons, ← ih]

end LogReader

/-! ### All items -/

namespace StoredRecord

theorem length_outcomes (start : Nat) (records : List StoredRecord) :
    (outcomes start records).length = records.length := by
  induction records generalizing start with
  | nil => rfl
  | cons r records ih => rw [outcomes, List.length_cons, List.length_cons, ih]

theorem length_flatMap_bytes (records : List StoredRecord) :
    8 * records.length ≤ (records.flatMap bytes).length := by
  induction records with
  | nil => exact Nat.zero_le _
  | cons r records ih =>
    rw [List.flatMap_cons, List.length_append, length_bytes, List.length_cons]
    omega

theorem getElem?_outcomes {records : List StoredRecord} {index : Nat} {r : StoredRecord} (start : Nat)
    (found : records[index]? = some r) :
    (outcomes start records)[index]? =
      some (r.outcome (UInt64.ofNat (start + elapsed (records.take (index + 1))))) := by
  induction records generalizing start index with
  | nil => cases found
  | cons first records ih =>
    cases index with
    | zero =>
      cases found
      simp [outcomes, elapsed, total]
    | succ index =>
      have onwards := ih (start + first.gap.toNat) found
      rw [outcomes, List.getElem?_cons_succ, onwards, List.take_succ_cons, Nat.add_assoc]
      rfl

theorem elapsed_take_le (records : List StoredRecord) (count : Nat) :
    elapsed (records.take count) ≤ elapsed records := by
  have whole : elapsed records = elapsed (records.take count) + elapsed (records.drop count) := by
    unfold elapsed
    rw [← total_append, ← List.map_append, List.take_append_drop]
  omega

end StoredRecord

theorem Ending.length_le {limit : Nat} {broken : Bool} {tail : List UInt8}
    {last : List (Except LogError LogRecord)} (ending : Ending limit broken tail last) : last.length ≤ 1 := by
  cases ending with
  | clean => exact Nat.zero_le 1
  | header | tooLarge | body => exact Nat.le_refl 1

namespace Division

variable {limit : Nat} {broken : Bool} {content : List UInt8} (d : Division limit broken content)

theorem length_items : d.items.length ≤ content.length / 8 + 1 := by
  have last := d.ending.length_le
  have records := StoredRecord.length_flatMap_bytes d.records
  have whole := congrArg List.length d.whole
  rw [List.length_append] at whole
  rw [items, List.length_append, StoredRecord.length_outcomes]
  omega

theorem getElem?_items {index : Nat} {r : StoredRecord} (found : d.records[index]? = some r) :
    d.items[index]? =
      some (r.outcome (UInt64.ofNat (StoredRecord.elapsed (d.records.take (index + 1))))) := by
  have inside := (List.getElem?_eq_some_iff.mp found).1
  have outcome := StoredRecord.getElem?_outcomes 0 found
  rw [Nat.zero_add] at outcome
  rw [items, List.getElem?_append_left (by rw [StoredRecord.length_outcomes]; exact inside), outcome]

end Division

/-- Behind a good header any bytes can be divided into records and an end. A reading gives for each record its
message at the frames that have gone by, or what is wrong with it, then what the end makes of it, and then
nothing any more. How the source delivers its bytes does not matter. -/
theorem LogReader.transcribes (sampleRate : UInt32) (content : List UInt8) (limit : Nat) (broken : Bool) :
    Nonempty (Division limit broken content) ∧
    ∀ d : Division limit broken content,
      d.items.length ≤ content.length / 8 + 1 ∧
      (StoredRecord.elapsed d.records < UInt64.size → ∀ index r, d.records[index]? = some r →
        ∃ time : UInt64, time.toNat = StoredRecord.elapsed (d.records.take (index + 1)) ∧
          d.items[index]? = some (r.outcome time)) ∧
      ∀ source : Source, source.content = logMagic ++ bigEndian 4 sampleRate.toNat ++ content →
        source.broken = broken →
        ∃ reader after, openSource source = .ok reader ∧ reader.sampleRate = sampleRate ∧
          Yields next { reader with maxRecord := limit } d.items after ∧
          { reader with maxRecord := limit }.items = d.items := by
  refine ⟨exists_division limit broken content, ?_⟩
  intro d
  refine ⟨d.length_items, ?_, ?_⟩
  · intro bounded index r found
    have below := Nat.lt_of_le_of_lt (StoredRecord.elapsed_take_le d.records (index + 1)) bounded
    exact ⟨_, UInt64.toNat_ofNat_of_lt' below, d.getElem?_items found⟩
  · rintro source whole rfl
    obtain ⟨reader, opened, rate, ready⟩ := openSource_content whole
    rw [← d.whole] at ready
    have ready : Before limit source.broken (UInt64.ofNat 0) _ { reader with maxRecord := limit } :=
      ⟨ready.content, ready.broken, ready.time, rfl, ready.going⟩
    obtain ⟨after, yields⟩ := yields_records d.small d.ending ready
    refine ⟨reader, after, opened, rate, yields, ?_⟩
    rw [LogReader.items, takeItems_of_yields yields, ready.content, d.whole]
    exact List.take_of_length_le d.length_items

end OscHost
