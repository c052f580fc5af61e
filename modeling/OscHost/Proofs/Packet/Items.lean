import OscHost.Proofs.Packet.Flattening
import OscHost.Schedule.Clock

/-!
# The items of a packet

What a handler makes of a packet does not depend on how its state looks: two handlers that give the
same frame times and keep their states related end in the same way and in related states
(`unroll_alike`). So a packet has items, each with its frame time, and a handler that takes its frame
times from clocks goes through these in order, whatever it does with them (`unroll_each`).
-/

namespace OscHost

/-! ### Two handlers -/

/-- Two handlers give the same frame times and keep their states related. -/
structure UnrollHandler.Matches (R : σ → τ → Prop) (handler : UnrollHandler σ) (other : UnrollHandler τ) :
    Prop where
  timestamp : ∀ tag s t, R s t → (handler.timestamp tag s).1 = (other.timestamp tag t).1 ∧
    R (handler.timestamp tag s).2 (other.timestamp tag t).2
  message : ∀ time bytes s t, R s t → R (handler.message time bytes s) (other.message time bytes t)
  bundle : ∀ time bytes s t, R s t → R (handler.bundle time bytes s) (other.bundle time bytes t)

inductive Alike (R : σ → τ → Prop) :
    EStateM.Result WireError σ Unit → EStateM.Result WireError τ Unit → Prop where
  | ok {s : σ} {t : τ} (related : R s t) : Alike R (.ok () s) (.ok () t)
  | error {s : σ} {t : τ} (error : WireError) (related : R s t) :
      Alike R (.error error s) (.error error t)

namespace UnrollHandler.Matches

variable {σ τ : Type} {R : σ → τ → Prop} {handler : UnrollHandler σ} {other : UnrollHandler τ} {s : σ} {t : τ}

theorem walkBundle_alike (same : handler.Matches R other) (b : Bundle) (related : R s t) :
    Alike R (walkBundle handler b s) (walkBundle other b t) := by
  -- The induction follows the recursion of the walk by the first handler.
  refine (walkBundle.mutual_induct handler
    (fun b s => ∀ t, R s t → Alike R (walkBundle handler b s) (walkBundle other b t))
    (fun time elements s => ∀ t, R s t →
      Alike R (walkElements handler time elements s) (walkElements other time elements t))
    ?bundle ?nil ?unread ?nested ?broken ?message).1 b s t related
  case bundle =>
    intro b s time between asked _ inside t related
    obtain ⟨answer, kept⟩ := same.timestamp b.time s t related
    rw [asked] at answer kept
    rw [walkBundle, walkBundle, asked]
    dsimp only at answer ⊢
    rw [← answer]
    exact inside _ kept
  case nil =>
    intro time s t related
    rw [walkElements, walkElements]
    exact .ok related
  case unread =>
    intro time s element rest start error refused t related
    rw [walkElements_unread _ start refused, walkElements_unread _ start refused]
    exact .error _ related
  case nested =>
    intro time s rest nested between walked start header inside onwards t related
    have entered := inside t related
    rw [walked] at entered
    generalize ended : walkBundle other nested t = result at entered
    cases entered with
    | ok kept =>
      rw [walkElements_nested _ start header walked, walkElements_nested _ start header ended]
      exact onwards _ kept
  case broken =>
    intro time s rest nested error between failed start header inside t related
    have entered := inside t related
    rw [failed] at entered
    generalize ended : walkBundle other nested t = result at entered
    cases entered with
    | error _ kept =>
      rw [walkElements_broken _ start header failed, walkElements_broken _ start header ended]
      exact .error _ kept
  case message =>
    intro time s element rest start onwards t related
    rw [walkElements_other _ start, walkElements_other _ start]
    exact onwards _ (same.message _ _ _ _ related)

theorem unroll_alike (same : handler.Matches R other) (mode : UnrollMode) (bytes : List UInt8)
    (related : R s t) : Alike R (unroll handler mode bytes s) (unroll other mode bytes t) := by
  cases parsed : Packet.parse bytes with
  | error error =>
    rw [unroll_error _ parsed, unroll_error _ parsed]
    exact .error _ related
  | ok p =>
    rw [unroll, unroll, parsed]
    cases p with
    | message m =>
      obtain ⟨answer, kept⟩ := same.timestamp .immediate s t related
      dsimp only
      rw [answer]
      exact .ok (same.message _ _ _ _ kept)
    | bundle b =>
      obtain ⟨answer, kept⟩ := same.timestamp b.time s t related
      cases mode with
      | none =>
        dsimp only
        rw [answer]
        exact .ok (same.bundle _ _ _ _ kept)
      | partway => exact same.walkBundle_alike b related
      | full => exact same.walkBundle_alike b related

end UnrollHandler.Matches

/-! ### Items -/

/-- A message or a bundle that a packet is taken apart into, with the frame at which it is due. -/
structure Item where
  time : UInt64
  bytes : List UInt8
  deriving DecidableEq, Repr

/-- A handler that takes its frame times from clocks and does the same with messages and bundles. -/
def UnrollHandler.each (clocks : Clocks) (step : σ → Item → σ) : UnrollHandler σ where
  timestamp tag state := (clocks.frameFor tag, state)
  message time bytes state := step state ⟨time, bytes⟩
  bundle time bytes state := step state ⟨time, bytes⟩

/-- The items of a packet. A malformed packet has none. -/
def Clocks.items (clocks : Clocks) (mode : UnrollMode) (packet : List UInt8) : List Item :=
  match unroll (.each clocks fun items item => items ++ [item]) mode packet [] with
  | .ok () items => items
  | .error _ items => items

theorem unroll_each (clocks : Clocks) (step : σ → Item → σ) (mode : UnrollMode) {packet : List UInt8}
    {p : Packet} (parsed : Packet.parse packet = .ok p) (state : σ) :
    unroll (.each clocks step) mode packet state =
      .ok () ((clocks.items mode packet).foldl step state) := by
  let gather : UnrollHandler (List Item) := .each clocks fun items item => items ++ [item]
  have same : gather.Matches (fun items after => after = items.foldl step state) (.each clocks step) := by
    have item : ∀ time bytes items after, after = items.foldl step state →
        step after ⟨time, bytes⟩ = (items ++ [⟨time, bytes⟩]).foldl step state := by
      intro time bytes items after reached
      rw [reached, List.foldl_append, List.foldl_cons, List.foldl_nil]
    exact ⟨fun _ _ _ reached => ⟨rfl, reached⟩, item, item⟩
  obtain ⟨_, items, gathered, -⟩ : ∃ calls items, unroll gather mode packet [] = .ok () items ∧ _ :=
    unroll_unrolls gather parsed []
  have start : state = [].foldl step state := rfl
  have alike := same.unroll_alike mode packet start
  rw [Clocks.items, gathered]
  rw [gathered] at alike
  generalize unroll (.each clocks step) mode packet state = result at alike ⊢
  cases alike with
  | ok reached => exact congrArg _ reached

end OscHost
