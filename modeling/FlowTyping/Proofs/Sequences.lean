/-!
# Sequences of steps

How a sequence of two steps that pass a state on runs: it goes on from where the first step ends
(`bind_of_ok`) or ends early with it (`bind_of_error`), and one that ends well comes apart into its steps
(`bind_eq_ok_iff`).  Inference, the parser of tokens and the one that goes by index are all made of such
steps.
-/

namespace FlowTyping

variable {ε σ α β : Type} {m : EStateM ε σ α} {f : α → EStateM ε σ β} {s t u : σ} {a : α} {b : β} {e : ε}

theorem bind_of_ok (h : m s = .ok a t) : (m >>= f) s = f a t := by
  show EStateM.bind m f s = _
  rw [EStateM.bind, h]

theorem bind_of_error (h : m s = .error e t) : (m >>= f) s = .error e t := by
  show EStateM.bind m f s = _
  rw [EStateM.bind, h]

theorem bind_eq_ok_iff : (m >>= f) s = .ok b u ↔ ∃ a t, m s = .ok a t ∧ f a t = .ok b u := by
  cases h : m s with
  | ok a t =>
    rw [bind_of_ok h]
    exact ⟨fun hf => ⟨a, t, rfl, hf⟩, by rintro ⟨_, _, ⟨⟩, hf⟩; exact hf⟩
  | error e t => rw [bind_of_error h]; simp

end FlowTyping
