/-! Scripts. A script makes one call after the other and goes on with what it hears, until it is
done. `Meets` says which calls a script may make, as long as what it hears is what may be heard,
and what it may come to; it is passed on along `>>=`. -/

namespace Distllm

/-- A script that makes calls `ι`, hears answers `ο` and comes to a value. -/
inductive Script (ι ο α : Type) where
  | done (value : α)
  | call (request : ι) (next : ο → Script ι ο α)

namespace Script

variable {ι ο α β : Type}

def andThen : Script ι ο α → (α → Script ι ο β) → Script ι ο β
  | done value, f => f value
  | call request next, f => call request fun answer => (next answer).andThen f

instance : Monad (Script ι ο) where
  pure := done
  bind := andThen

/-- Make a call and hear its answer. -/
def ask (request : ι) : Script ι ο ο := call request done

/-- All calls are such as `asks` says, and the value is `good`, if only answers are heard that
`hears` relates to their calls. -/
def Meets (asks : ι → Prop) (hears : ι → ο → Prop) (good : α → Prop) : Script ι ο α → Prop
  | done value => good value
  | call request next =>
    asks request ∧ ∀ answer, hears request answer → (next answer).Meets asks hears good

variable {asks : ι → Prop} {hears : ι → ο → Prop} {good good' : α → Prop}

@[simp] theorem meets_pure (value : α) :
    (pure value : Script ι ο α).Meets asks hears good ↔ good value :=
  Iff.rfl

theorem meets_ask {request : ι} {good : ο → Prop} :
    (ask request : Script ι ο ο).Meets asks hears good ↔
      asks request ∧ ∀ answer, hears request answer → good answer :=
  Iff.rfl

theorem Meets.mono {script : Script ι ο α} (h : script.Meets asks hears good)
    (hgood : ∀ value, good value → good' value) : script.Meets asks hears good' := by
  induction script with
  | done value => exact hgood value h
  | call request next ih => exact ⟨h.1, fun answer hanswer => ih answer (h.2 answer hanswer)⟩

/-- First one script, and then the next. -/
theorem Meets.bind {script : Script ι ο α} {f : α → Script ι ο β} {good : α → Prop}
    {good' : β → Prop} (h : script.Meets asks hears good)
    (hf : ∀ value, good value → (f value).Meets asks hears good') :
    (script >>= f).Meets asks hears good' := by
  induction script with
  | done value => exact hf value h
  | call request next ih => exact ⟨h.1, fun answer hanswer => ih answer (h.2 answer hanswer)⟩

/-- One call, and then the rest. -/
theorem Meets.ask {request : ι} {f : ο → Script ι ο α} (hasks : asks request)
    (hf : ∀ answer, hears request answer → (f answer).Meets asks hears good) :
    (Script.ask request >>= f).Meets asks hears good :=
  ⟨hasks, hf⟩

/-- A script that has made a call goes on with an answer that may be heard. -/
theorem Meets.answer {request : ι} {next : ο → Script ι ο α}
    (h : (call request next).Meets asks hears good) {answer : ο} (hanswer : hears request answer) :
    (next answer).Meets asks hears good :=
  h.2 answer hanswer

end Script
end Distllm
