/-!
# Iteration

A call for an item answers with one, or with none at the end, and changes the state that the next call
starts from. What the calls yield is a list of items, and none ever after.
-/

namespace OscHost

section

variable {σ α : Type} {next : σ → Option α × σ} {s t : σ} {items : List α}

/-- The calls from `s` on answer with the items one after the other, and then with none in the state `t`,
which further calls do not leave. -/
inductive Yields (next : σ → Option α × σ) : σ → List α → σ → Prop where
  | done {s t : σ} (stops : next s = (none, t)) (silent : next t = (none, t)) : Yields next s [] t
  | item {s t u : σ} {a : α} {items : List α} (called : next s = (some a, t))
      (onwards : Yields next t items u) : Yields next s (a :: items) u

/-- Pass over `index` items and answer with the one behind them. The first call that answers with none is
the last. -/
def nth (next : σ → Option α × σ) : (index : Nat) → σ → Option α × σ
  | 0, s => next s
  | index + 1, s =>
    match next s with
    | (some _, t) => nth next index t
    | (none, t) => (none, t)

theorem Yields.nth (yields : Yields next s items t) (index : Nat) : (nth next index s).1 = items[index]? := by
  induction yields generalizing index with
  | done stops silent =>
    cases index with
    | zero => simp [OscHost.nth, stops]
    | succ index => simp [OscHost.nth, stops]
  | item called onwards ih =>
    cases index with
    | zero => simp [OscHost.nth, called]
    | succ index => simp [OscHost.nth, called, ih]

end

end OscHost
