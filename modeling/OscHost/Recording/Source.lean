import OscHost.Bytes

/-!
Sources of bytes. A source delivers its bytes in pieces and may interrupt a read; what can be filled
from it depends on the bytes alone.
-/

namespace OscHost

/-- What one read of a source gives before the source ends. -/
inductive Delivery where
  /-- One byte at least: a read that gives none has found the end. -/
  | bytes (first : UInt8) (more : List UInt8)
  /-- A read that has to be tried again. -/
  | interrupted
  deriving DecidableEq, Repr

def Delivery.content : Delivery → List UInt8
  | .bytes first more => first :: more
  | .interrupted => []

/-- Bytes that arrive in pieces. -/
structure Source where
  deliveries : List Delivery
  /-- Whether reads fail after the last delivery, where they would otherwise find the end. -/
  broken : Bool := false
  deriving DecidableEq, Repr, Inhabited

namespace Source

def content (source : Source) : List UInt8 := source.deliveries.flatMap Delivery.content

/-- Deliveries of at most `size` bytes each. If that is none, nothing is ever delivered. -/
def pieces : (size : Nat) → List UInt8 → List Delivery
  | 0, _ => []
  | _ + 1, [] => []
  | size + 1, byte :: rest =>
    .bytes byte (rest.take size) :: pieces (size + 1) (rest.drop size)
termination_by _ bytes => bytes.length

/-- A source that gives at most `size` bytes in a read. Once it has given `failAt` bytes its reads
fail, also where its bytes end. -/
def ofBytes (bytes : List UInt8) (size : Nat) (failAt : Option Nat) : Source :=
  let given := if size = 0 then [] else bytes.take (failAt.getD bytes.length)
  { deliveries := pieces size given, broken := failAt.any (· ≤ given.length) }

/-- The source with an interruption before every delivery and before the end. -/
def interrupting (source : Source) : Source :=
  { source with
    deliveries := source.deliveries.flatMap ([.interrupted, ·]) ++ [.interrupted] }

/-- Read until `count` bytes are there or the deliveries are used up. -/
def gather : (count : Nat) → List Delivery → List UInt8 × List Delivery
  | 0, deliveries => ([], deliveries)
  | _ + 1, [] => ([], [])
  | count + 1, .interrupted :: rest => gather (count + 1) rest
  | count + 1, .bytes first more :: rest =>
    match more.drop count with
    | next :: left => (first :: more.take count, .bytes next left :: rest)
    | [] =>
      let (got, rest) := gather (count - more.length) rest
      (first :: more ++ got, rest)

/-- Up to `count` bytes: fewer only where the source ends or fails. -/
def fill (source : Source) (count : Nat) : List UInt8 × Source :=
  let (got, deliveries) := gather count source.deliveries
  (got, { source with deliveries })

theorem content_pieces (size : Nat) (bytes : List UInt8) :
    (pieces (size + 1) bytes).flatMap Delivery.content = bytes := by
  induction h : bytes.length using Nat.strongRecOn generalizing bytes with
  | ind length ih =>
    cases bytes with
    | nil => simp [pieces]
    | cons byte rest =>
      have shorter : (rest.drop size).length < length := by
        rw [← h, List.length_drop, List.length_cons]
        omega
      rw [pieces, List.flatMap_cons, ih _ shorter _ rfl, Delivery.content, List.cons_append,
        List.take_append_drop]

/-- As long as a read can give anything, what a source that never fails delivers are its bytes. -/
theorem content_ofBytes (bytes : List UInt8) (size : Nat) :
    (ofBytes bytes (size + 1) none).content = bytes := by
  simp [ofBytes, content, content_pieces]

theorem content_interrupting (source : Source) : source.interrupting.content = source.content := by
  have each (deliveries : List Delivery) :
      (deliveries.flatMap ([.interrupted, ·])).flatMap Delivery.content =
        deliveries.flatMap Delivery.content := by
    induction deliveries with
    | nil => rfl
    | cons delivery rest ih => simp_all [Delivery.content]
  simp [interrupting, content, each, Delivery.content]

theorem append_gather (count : Nat) (deliveries : List Delivery) :
    (gather count deliveries).1 ++ (gather count deliveries).2.flatMap Delivery.content =
      deliveries.flatMap Delivery.content := by
  fun_induction gather count deliveries with
  | case1 => rfl
  | case2 => rfl
  | case3 count rest ih => simpa [Delivery.content] using ih
  | case4 count first more rest next left enough =>
    have whole : more.take count ++ next :: left = more := by
      rw [← enough, List.take_append_drop]
    rw [List.flatMap_cons, List.flatMap_cons, Delivery.content, Delivery.content,
      ← List.append_assoc, List.cons_append, whole]
  | case5 count first more rest less got left read ih =>
    rw [read] at ih
    rw [List.flatMap_cons, Delivery.content, List.append_assoc, ih]

/-- What is gathered and what is left make up what was to come. -/
theorem append_fill (source : Source) (count : Nat) :
    (source.fill count).1 ++ (source.fill count).2.content = source.content :=
  append_gather count source.deliveries

/-- A read of a source gets all that it asks for, or all there is. -/
theorem gather_eq_take (count : Nat) (deliveries : List Delivery) :
    (gather count deliveries).1 = (deliveries.flatMap Delivery.content).take count := by
  fun_induction gather count deliveries with
  | case1 => rfl
  | case2 => rfl
  | case3 count rest ih => simpa [Delivery.content] using ih
  | case4 count first more rest next left enough =>
    have long : count ≤ more.length := by
      have sizes := congrArg List.length enough
      rw [List.length_drop, List.length_cons] at sizes
      omega
    rw [List.flatMap_cons, Delivery.content, List.cons_append, List.take_succ_cons,
      List.take_append_of_le_length long]
  | case5 count first more rest less got left read ih =>
    have short : more.length ≤ count := List.drop_eq_nil_iff.mp less
    rw [read] at ih
    rw [List.flatMap_cons, Delivery.content, List.cons_append, List.cons_append, List.take_succ_cons,
      List.take_append, List.take_of_length_le short, ← ih]

/-- What can be filled depends on the bytes alone. -/
theorem fill_eq (source : Source) (count : Nat) :
    ∃ after : Source, source.fill count = (source.content.take count, after) ∧
      after.content = source.content.drop count ∧ after.broken = source.broken := by
  have got : (source.fill count).1 = source.content.take count := gather_eq_take count source.deliveries
  refine ⟨(source.fill count).2, Prod.ext got rfl, ?_, rfl⟩
  have whole := append_fill source count
  rw [got] at whole
  exact List.append_cancel_left (whole.trans (List.take_append_drop count _).symm)

end Source

end OscHost
