import OscHost.Proofs.Packet.Composition
import OscHost.Proofs.Wire.Steadiness

/-!
# Requests that fail

What a composer answers depends on what is written, on how much room is left and on which bundles are open. A
request that fails leaves these as they were (`serve_refused`), so it may as well not have been made
(`observe_successes`). There is one exception: a nested bundle that is too long for its length word counts as
closed, although the request fails.
-/

namespace OscHost

namespace Composer

/-- What a composer goes by. -/
structure View where
  cursor : Cursor
  marks : List ElementMark
  depth : Nat
  deriving DecidableEq, Repr

def view (c : Composer) : View := ⟨c.writer.cursor, c.marks, c.depth⟩

def View.room (v : View) : Nat := v.cursor.room

abbrev Steady (step : Compose α) : Prop := OscHost.Steady view View.room step

variable {c c' : Composer} {e : WireError}

theorem view_eq_iff :
    c.view = c'.view ↔ c.writer.cursor = c'.writer.cursor ∧ c.marks = c'.marks ∧ c.depth = c'.depth := by
  simp [view]

theorem position_eq (same : c.view = c'.view) : c.writer.position = c'.writer.position := by
  have written := (Writer.cursor_eq_iff.mp (view_eq_iff.mp same).1).1
  rw [Writer.position, Writer.position, written]

theorem steady_attempt {step : Write α} (steady : Writer.Steady step) : Steady (attempt step) := by
  constructor
  · intro c c' same
    obtain ⟨cursor, marks, depth⟩ := view_eq_iff.mp same
    have position := position_eq same
    have stepped := steady.alike _ _ cursor
    rw [attempt, attempt]
    generalize step c.writer = one at stepped ⊢
    generalize step c'.writer = other at stepped ⊢
    cases one <;> cases other <;> simp only [seen, Prod.mk.injEq, reduceCtorEq, false_and] at stepped
    case ok.ok a u b v =>
      obtain ⟨⟨⟩, reached⟩ := stepped
      exact congrArg (Prod.mk _) (view_eq_iff.mpr ⟨reached, marks, depth⟩)
    case error.error e u f v =>
      obtain ⟨⟨⟩, reached⟩ := stepped
      obtain ⟨written, remaining⟩ := Writer.cursor_eq_iff.mp reached
      refine congrArg (Prod.mk _) (view_eq_iff.mpr ⟨?_, marks, depth⟩)
      rw [Writer.cursor_rewind, Writer.cursor_rewind, written, remaining, position]
  · intro c
    have kept := steady.room c.writer
    rw [attempt]
    generalize step c.writer = outcome at kept ⊢
    cases outcome with
    | ok a w => exact kept
    | error e w =>
      exact (Writer.room_rewind w _).trans kept

theorem steady_openBundle (time : TimeTag) : Steady (openBundle time) := by
  refine steady_get ?_ ?_
  · intro c c' same
    rw [(view_eq_iff.mp same).2.2, position_eq same]
  · intro c
    refine steady_ite (steady_thrown _ _) (steady_ite (steady_ite ?_ (steady_thrown _ _)) ?_)
    · refine steady_bind (steady_attempt (Writer.steady_put _)) fun _ => steady_modify ?_ ?_
      · intro c c' same
        obtain ⟨cursor, marks, -⟩ := view_eq_iff.mp same
        exact view_eq_iff.mpr ⟨cursor, marks, rfl⟩
      · intro c
        rfl
    · refine steady_bind (steady_attempt ?_) fun mark => steady_modify ?_ ?_
      · exact steady_bind Writer.steady_beginElement fun _ =>
          steady_bind (Writer.steady_put _) fun _ => steady_pure _
      · intro c c' same
        obtain ⟨cursor, marks, depth⟩ := view_eq_iff.mp same
        exact view_eq_iff.mpr ⟨cursor, congrArg (List.cons mark) marks, congrArg (· + 1) depth⟩
      · intro c
        rfl

theorem steady_append {content : Write Unit} (steady : Writer.Steady content) : Steady (append content) := by
  refine steady_get ?_ ?_
  · intro c c' same
    rw [(view_eq_iff.mp same).2.2]
  · intro c
    exact steady_ite (steady_thrown _ _) (steady_attempt (Writer.steady_putElement steady))

theorem steady_closeBundle : Steady closeBundle := by
  let pop (c : Composer) : Composer := { c with marks := c.marks.tail, depth := c.depth - 1 }
  have popped : Steady (modify pop) := by
    apply steady_modify
    · intro c c' same
      obtain ⟨cursor, marks, depth⟩ := view_eq_iff.mp same
      exact view_eq_iff.mpr ⟨cursor, congrArg List.tail marks, congrArg (· - 1) depth⟩
    · intro c
      rfl
  apply steady_of_acts
  rintro ⟨writer, marks, depth⟩
  by_cases closed : depth = 0
  · refine ⟨throw .invalidBundleHeader, steady_throw _, ?_⟩
    rintro ⟨writer', marks', depth'⟩ same
    obtain ⟨-, -, rfl⟩ := view_eq_iff.mp same
    show (if depth = 0 then _ else _ : Compose Unit) _ = _
    rw [if_pos closed]
    rfl
  · cases marks with
    | nil =>
      refine ⟨modify pop, popped, ?_⟩
      rintro ⟨writer', marks', depth'⟩ same
      obtain ⟨-, rfl, rfl⟩ := view_eq_iff.mp same
      show (if depth = 0 then _ else _ : Compose Unit) _ = _
      rw [if_neg closed]
      rfl
    | cons mark outer =>
      have ended := steady_attempt (Writer.steady_endElement mark)
      refine ⟨modify pop >>= fun _ => attempt (Writer.endElement mark), steady_bind popped fun _ => ended, ?_⟩
      rintro ⟨writer', marks', depth'⟩ same
      obtain ⟨-, rfl, rfl⟩ := view_eq_iff.mp same
      show (if depth = 0 then _ else _ : Compose Unit) _ = _
      rw [if_neg closed]
      rfl

theorem steady_serve (request : Request) : Steady (serve request) := by
  cases request with
  | openBundle time => exact steady_openBundle time
  | message path args => exact steady_append (Writer.steady_putMessage path args)
  | element packet => exact steady_append (Writer.steady_put packet)
  | closeBundle => exact steady_closeBundle

theorem steady_closeBundles (count : Nat) : Steady (closeBundles count) := by
  induction count with
  | zero => exact steady_pure ()
  | succ count ih => exact steady_bind steady_closeBundle fun _ => ih

theorem steady_finish : Steady finish := by
  refine steady_get ?_ ?_
  · intro c c' same
    rw [(view_eq_iff.mp same).2.2]
  · intro c
    refine steady_bind (steady_closeBundles _) fun _ => steady_get ?_ ?_
    · intro c c' same
      rw [position_eq same]
    · intro c
      exact steady_pure _

/-! ### Requests that fail -/

theorem closeBundle_error (failed : closeBundle c = .error e c') :
    c' = c ∨ c.depth ≠ 0 ∧ ∃ mark outer, c.marks = mark :: outer ∧
      Writer.endElement mark c.writer = .error e c.writer ∧
      c' = { c with marks := outer, depth := c.depth - 1 } := by
  simp only [closeBundle, bind_eq_error, get_ne_error, false_or, get_eq_ok] at failed
  obtain ⟨_, _, ⟨rfl, rfl⟩, failed⟩ := failed
  rcases when_eq_error.mp failed with ⟨_, _, rfl⟩ | ⟨nested, failed⟩
  · exact .inl rfl
  · refine .inr ⟨nested, ?_⟩
    rcases bind_eq_error.mp failed with failed | ⟨_, _, moved, failed⟩
    · cases failed
    · cases moved
      cases marks : c.marks with
      | nil =>
        rw [marks] at failed
        cases failed
      | cons mark outer =>
        rw [marks] at failed
        dsimp only [attempt] at failed
        cases ended : Writer.endElement mark c.writer with
        | ok _ w =>
          rw [ended] at failed
          cases failed
        | error _ w =>
          obtain rfl := Writer.endElement_error ended
          rw [ended] at failed
          cases failed
          exact ⟨mark, outer, rfl, ended, by rw [Writer.rewind_position]; rfl⟩

/-- A request that fails leaves all as it was that a composer goes by, unless it is to close a bundle whose
length word cannot be filled in. -/
theorem serve_refused {request : Request} (failed : serve request c = .error e c') :
    c'.view = c.view ∨
      request = .closeBundle ∧ c.depth ≠ 0 ∧ ∃ mark outer, c.marks = mark :: outer ∧
        Writer.endElement mark c.writer = .error e c.writer ∧
        c' = { c with marks := outer, depth := c.depth - 1 } := by
  by_cases close : request = .closeBundle
  · subst close
    rcases closeBundle_error failed with rfl | long
    · exact .inl rfl
    · exact .inr ⟨rfl, long⟩
  · obtain ⟨written, marks, depth⟩ := serve_error close failed
    have room := (steady_serve request).room c
    rw [failed] at room
    have remaining : c'.writer.written.length + c'.writer.remaining =
        c.writer.written.length + c.writer.remaining := room
    rw [written] at remaining
    exact .inl (view_eq_iff.mpr
      ⟨Writer.cursor_eq_iff.mpr ⟨written, Nat.add_left_cancel remaining⟩, marks, depth⟩)

/-- Composers that look alike answer alike, now and in the end. -/
theorem observe_alike (same : c.view = c'.view) (requests : List Request) :
    (c.observe requests).1 = (c'.observe requests).1 ∧
      (c.observe requests).2.view = (c'.observe requests).2.view := by
  induction requests generalizing c c' with
  | nil => exact ⟨rfl, same⟩
  | cons request requests ih =>
    have served := (steady_serve request).alike c c' same
    have depth := (view_eq_iff.mp same).2.2
    rw [observe, observe, depth]
    generalize serve request c = one at served ⊢
    generalize serve request c' = other at served ⊢
    cases one <;> cases other <;> simp only [seen, Prod.mk.injEq, reduceCtorEq, false_and] at served
    case ok.ok =>
      obtain ⟨answers, last⟩ := ih served.2
      exact ⟨congrArg (List.cons _) answers, last⟩
    case error.error =>
      obtain ⟨answers, last⟩ := ih served.2
      exact ⟨congrArg (List.cons _) answers, last⟩

theorem observe_ok {next : Composer} {request : Request} {done : Unit} (served : serve request c = .ok done next)
    (requests : List Request) :
    c.observe (request :: requests) =
      (⟨request, c.depth, true⟩ :: (next.observe requests).1, (next.observe requests).2) := by
  rw [observe, served]

theorem observe_error {next : Composer} {request : Request} (served : serve request c = .error e next)
    (requests : List Request) :
    c.observe (request :: requests) =
      (⟨request, c.depth, false⟩ :: (next.observe requests).1, (next.observe requests).2) := by
  rw [observe, served]

theorem observe_shorter (requests : List Request)
    (closed : ∀ made ∈ (c.observe requests).1, made.request = .closeBundle → made.depth ≠ 0 →
      made.succeeded = true) :
    (c.observe (successes (c.observe requests).1)).1 = (c.observe requests).1.filter (·.succeeded) ∧
      (c.observe (successes (c.observe requests).1)).2.view = (c.observe requests).2.view := by
  induction requests generalizing c with
  | nil => exact ⟨rfl, rfl⟩
  | cons request requests ih =>
    cases served : serve request c with
    | ok done next =>
      rw [observe_ok served] at closed ⊢
      obtain ⟨answers, last⟩ := ih (List.forall_mem_cons.mp closed).2
      have kept : successes (⟨request, c.depth, true⟩ :: (next.observe requests).1) =
          request :: successes (next.observe requests).1 := rfl
      rw [kept, observe_ok served]
      exact ⟨congrArg (List.cons _) answers, last⟩
    | error e next =>
      rw [observe_error served] at closed ⊢
      -- The others find what they would find without the request that failed.
      obtain ⟨first, others⟩ := List.forall_mem_cons.mp closed
      obtain ⟨answers, last⟩ := ih others
      have same : next.view = c.view := by
        rcases serve_refused served with same | ⟨close, nested, -⟩
        · exact same
        · cases first close nested
      obtain ⟨again, reached⟩ := observe_alike same (successes (next.observe requests).1)
      exact ⟨again.symm.trans answers, reached.symm.trans last⟩

/-- A run in which no bundle fails to close for its length is as if none of the requests that failed had been
made: the others are answered the same, and what comes out in the end is the same. -/
theorem observe_successes (c : Composer) (requests : List Request)
    (closed : ∀ made ∈ (c.observe requests).1, made.request = .closeBundle → made.depth ≠ 0 →
      made.succeeded = true) :
    let run := c.observe requests
    let shorter := c.observe (successes run.1)
    shorter.1 = run.1.filter (·.succeeded) ∧ shorter.2.view = run.2.view ∧
      seen view (finish shorter.2) = seen view (finish run.2) := by
  obtain ⟨answers, last⟩ := observe_shorter requests closed
  exact ⟨answers, last, steady_finish.alike _ _ last⟩

/-- A bundle that cannot be closed is too long for its length word. -/
theorem Keeps.closeBundle_error {draft : Draft} (keeps : c.Keeps draft)
    (failed : Composer.closeBundle c = .error e c') :
    c' = c ∨ ∃ bundle next outer, draft = .opened (bundle :: next :: outer) ∧
      maxLength < bundle.outline.bytes.length ∧
      c' = { c with marks := c.marks.tail, depth := c.depth - 1 } := by
  rcases Composer.closeBundle_error failed with same | ⟨nested, mark, outer, marks, ended, rfl⟩
  · exact .inl same
  · obtain ⟨bundle, others, rfl⟩ := keeps.exists_open nested
    have written := keeps.written
    rw [keeps.marks] at marks
    cases others with
    | nil => cases marks
    | cons next others =>
      cases marks
      refine .inr ⟨bundle, next, others, rfl, ?_, ?_⟩
      · by_contra short
        have filled : Writer.endElement _ c.writer = .ok () _ :=
          (Writer.endElement_eq_ok written).mpr ⟨Nat.not_lt.mp short, rfl⟩
        cases filled.symm.trans ended
      · rw [keeps.marks]
        rfl

end Composer

end OscHost
