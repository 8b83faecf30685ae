import Mathlib.Logic.Basic

/-! What a computation that can fail makes sure of: some errors do not come, and its result has a property. -/

namespace Ucore.Lib

universe u v

variable {ε : Type u} {α β : Type v} {bad : ε → Prop} {r : Except ε α} {f : α → Except ε β} {post post' : α → Prop} {final : β → Prop} {a : α} {e : ε}

/-- No error is `bad`, and a result satisfies `post`. -/
structure Ensures (bad : ε → Prop) (r : Except ε α) (post : α → Prop) : Prop where
  safe : ∀ e, r = .error e → ¬ bad e
  post : ∀ a, r = .ok a → post a

namespace Ensures

theorem ok (holds : post a) : Ensures bad (.ok a : Except ε α) post where
  safe e impossible := by cases impossible
  post a' same := by
    cases same
    exact holds

theorem error (harmless : ¬ bad e) : Ensures bad (.error e : Except ε α) post where
  safe e' same := by
    cases same
    exact harmless
  post a impossible := by cases impossible

/-- Nothing is known if no error is `bad` and no property is asked. -/
theorem unbarred (r : Except ε α) : Ensures (fun _ => False) r fun _ => True := ⟨fun _ _ => id, fun _ _ => trivial⟩

theorem mono (ensures : Ensures bad r post) (weaker : ∀ a, post a → post' a) : Ensures bad r post' :=
  ⟨ensures.safe, fun a same => weaker a (ensures.post a same)⟩

/-- What the result is known to be can be used. -/
theorem result (ensures : Ensures bad r post) : Ensures bad r fun a => post a ∧ r = .ok a :=
  ⟨ensures.safe, fun a same => ⟨ensures.post a same, same⟩⟩

theorem bind (first : Ensures bad r post) (rest : ∀ a, post a → Ensures bad (f a) final) : Ensures bad (r >>= f) final := by
  cases r with
  | error e => exact .error (first.safe e rfl)
  | ok a => exact rest a (first.post a rfl)

end Ensures

end Ucore.Lib
