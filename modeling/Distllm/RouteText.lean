import Distllm.RustTokens
import Distllm.Splits

/-! The `route` parameter of a submission: roles with commas between them. Each relay strips the
roles with its own library and leaves out what is empty then. -/

namespace Distllm

open Auth (isSpace strip)
open Auth.Rust (isWhitespace trim)

/-- `route.split(",")`, each role stripped. -/
def rolesBy (strip : Text → Text) (route : String) : List String :=
  (((route.toList.splitOn ',').map strip).filter (· ≠ [])).map String.ofList

/-- The `next_roles` of `relay.py`. -/
def PyRelay.nextRoles (route : String) : List String := rolesBy strip route

/-- The `route` of `main.rs`. -/
def Relay.routeRoles (route : String) : List String := rolesBy trim route

/-- Python strips four control characters that Rust keeps, and both strip the same others. -/
theorem isSpace_eq_isWhitespace {c : Char} (h : c.toNat < 28 ∨ 31 < c.toNat) :
    isSpace c = isWhitespace c := by
  rw [Bool.eq_iff_iff]
  simp only [isSpace, isWhitespace, Bool.or_eq_true, Bool.and_eq_true, decide_eq_true_eq,
    beq_iff_eq]
  omega

theorem strip_eq_trim {text : Text} (h : ∀ c ∈ text, c.toNat < 28 ∨ 31 < c.toNat) :
    strip text = trim text := by
  have hdrop : ∀ {xs : Text}, (∀ c ∈ xs, c.toNat < 28 ∨ 31 < c.toNat) →
      xs.dropWhile isSpace = xs.dropWhile isWhitespace := by
    intro xs hxs
    induction xs with
    | nil => rfl
    | cons c xs ih =>
        rw [List.dropWhile_cons, List.dropWhile_cons,
          isSpace_eq_isWhitespace (hxs c List.mem_cons_self),
          ih fun d hd => hxs d (List.mem_cons_of_mem _ hd)]
  have hfront := hdrop h
  rw [strip, trim, hfront, hdrop]
  intro c hc
  exact h c ((List.dropWhile_suffix _).subset (List.mem_reverse.mp hc))

/-- A route without these control characters is read alike. -/
theorem nextRoles_eq_routeRoles {route : String}
    (h : ∀ c ∈ route.toList, c.toNat < 28 ∨ 31 < c.toNat) :
    PyRelay.nextRoles route = Relay.routeRoles route := by
  have hfields : (route.toList.splitOn ',').map strip = (route.toList.splitOn ',').map trim := by
    apply List.map_congr_left
    intro field hfield
    apply strip_eq_trim
    intro c hc
    exact h c (Splits.subset_of_mem_splitOnP hfield hc)
  rw [PyRelay.nextRoles, Relay.routeRoles, rolesBy, rolesBy, hfields]

end Distllm
