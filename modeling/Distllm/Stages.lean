import Mathlib.Logic.Function.Iterate

/-! Stages in a row. A stage maps its input to a result, which may stop the chain, or to a failure.
`compose` is the sequential meaning of a route of stages; `advance` is one hop of a machine that
works the route off, and no hop changes what the chain will come to. -/

namespace Distllm.Stages

variable {ρ β ε : Type}

inductive Verdict (β ε : Type) where
  | result (body : β) (stops : Bool)
  | failure (message : ε)
  deriving DecidableEq

inductive Progress (ρ β ε : Type) where
  | running (role : ρ) (input : β) (route : List ρ)
  | completed (body : β)
  | failed (message : ε)

variable (F : ρ → β → Verdict β ε)

/-- Feed the input through the stages in order, up to the first failure, the first result that
stops the chain, or the last stage. -/
def compose (role : ρ) (input : β) : List ρ → Except ε β
  | [] => match F role input with
    | .result body _ => .ok body
    | .failure message => .error message
  | next :: tail => match F role input with
    | .result body stops => if stops then .ok body else compose next body tail
    | .failure message => .error message

namespace Progress

/-- What the chain will have come to. -/
def outcome : Progress ρ β ε → Except ε β
  | running role input route => compose F role input route
  | completed body => .ok body
  | failed message => .error message

/-- One hop: the current stage is executed. -/
def advance : Progress ρ β ε → Progress ρ β ε
  | running role input route => match F role input, route with
    | .failure message, _ => failed message
    | .result body _, [] => completed body
    | .result body stops, next :: tail => if stops then completed body else running next body tail
  | completed body => completed body
  | failed message => failed message

theorem advance_failure {role : ρ} {input : β} {message : ε} (h : F role input = .failure message)
    (route : List ρ) : advance F (running role input route) = failed message := by
  simp only [advance, h]

theorem advance_last {role : ρ} {input body : β} {stops : Bool} {route : List ρ}
    (h : F role input = .result body stops) (hlast : route = [] ∨ stops = true) :
    advance F (running role input route) = completed body := by
  cases route with
  | nil => simp only [advance, h]
  | cons next tail =>
      have hstops := hlast.resolve_left (List.cons_ne_nil next tail)
      simp only [advance, h, hstops, if_true]

theorem advance_next {role next : ρ} {input body : β} (h : F role input = .result body false)
    (tail : List ρ) :
    advance F (running role input (next :: tail)) = running next body tail := by
  simp only [advance, h]
  rfl

/-- A hop keeps the outcome. -/
theorem outcome_advance (p : Progress ρ β ε) : (p.advance F).outcome F = p.outcome F := by
  cases p with
  | completed body => rfl
  | failed message => rfl
  | running role input route =>
      cases h : F role input with
      | failure message =>
          rw [advance_failure F h]
          cases route <;> simp only [outcome, compose, h]
      | result body stops =>
          cases route with
          | nil =>
              rw [advance_last F h (.inl rfl)]
              simp only [outcome, compose, h]
          | cons next tail =>
              cases stops with
              | true =>
                  rw [advance_last F h (.inr rfl)]
                  simp only [outcome, compose, h, if_true]
              | false =>
                  rw [advance_next F h]
                  simp only [outcome, compose, h]
                  rfl

end Progress

/-! ### Stages that may answer in several ways -/

/-- What the input may come to along the stages: `W` relates the input of a stage to the verdicts it
may give. -/
inductive Comes (W : ρ → β → Verdict β ε → Prop) : ρ → β → List ρ → Except ε β → Prop where
  | failure {role : ρ} {input : β} {message : ε} (route : List ρ)
      (h : W role input (.failure message)) : Comes W role input route (.error message)
  | last {role : ρ} {input body : β} {stops : Bool} {route : List ρ}
      (h : W role input (.result body stops)) (hlast : route = [] ∨ stops = true) :
      Comes W role input route (.ok body)
  | next {role : ρ} {input body : β} {next : ρ} {tail : List ρ} {outcome : Except ε β}
      (h : W role input (.result body false)) (htail : Comes W next body tail outcome) :
      Comes W role input (next :: tail) outcome

namespace Progress

variable (W : ρ → β → Verdict β ε → Prop)

/-- What the chain may still come to. -/
def MayCome (p : Progress ρ β ε) (outcome : Except ε β) : Prop :=
  match p with
  | running role input route => Comes W role input route outcome
  | completed body => outcome = .ok body
  | failed message => outcome = .error message

variable {W}

/-- A hop with a verdict that the current stage may give opens no new outcome. -/
theorem mayCome_of_advance {role : ρ} {input : β} (hverdict : W role input (F role input))
    {route : List ρ} {outcome : Except ε β}
    (h : MayCome W (advance F (running role input route)) outcome) :
    MayCome W (running role input route) outcome := by
  cases hF : F role input with
  | failure message =>
      rw [advance_failure F hF] at h
      obtain rfl := h
      exact .failure route (hF ▸ hverdict)
  | result body stops =>
      by_cases hlast : route = [] ∨ stops = true
      · rw [advance_last F hF hlast] at h
        obtain rfl := h
        exact .last (hF ▸ hverdict) hlast
      · obtain ⟨hroute, hstops⟩ := not_or.mp hlast
        obtain rfl := Bool.eq_false_iff.mpr hstops
        obtain ⟨next, tail, rfl⟩ := List.exists_cons_of_ne_nil hroute
        rw [advance_next F hF] at h
        exact .next (hF ▸ hverdict) h

end Progress
end Distllm.Stages
