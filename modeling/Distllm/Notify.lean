import Mathlib.Data.List.Basic

/-! A notifier with one permit. A notification wakes one of the futures that wait, or it is stored
for the next one that looks; a future that is dropped after it was woken passes its notification
on. A notifier at which one future looks at most cannot lose a notification. -/

namespace Distllm

/-- Notifiers `ν` at which futures `ω` wait: `asleep` futures have looked and were not notified
since, `woken` ones were. -/
structure Notifier (ν ω : Type) where
  new : ν
  notifyOne : ν → ν
  poll : ω → ν → Bool × ν
  drop : ω → ν → ν
  permit : ν → Prop
  asleep : ω → ν → Prop
  woken : ω → ν → Prop
  exclusive : ∀ {w n}, asleep w n → ¬permit n ∧ ¬woken w n
  new_idle : ∀ w, ¬asleep w new ∧ ¬woken w new
  notifyOne_heard : ∀ n, permit (notifyOne n) ∨ ∃ w, asleep w n ∧ woken w (notifyOne n)
  notifyOne_users : ∀ w n, asleep w (notifyOne n) ∨ woken w (notifyOne n) → asleep w n ∨ woken w n
  poll_ready : ∀ w n, (poll w n).1 = true ↔ permit n ∨ woken w n
  poll_pending : ∀ w n, (poll w n).1 = false → asleep w (poll w n).2
  poll_done : ∀ w n, (poll w n).1 = true → ¬asleep w (poll w n).2 ∧ ¬woken w (poll w n).2
  poll_users : ∀ v w n, asleep v (poll w n).2 ∨ woken v (poll w n).2 →
    (asleep v n ∨ woken v n) ∨ v = w
  drop_done : ∀ w n, ¬asleep w (drop w n) ∧ ¬woken w (drop w n)
  drop_users : ∀ v w n, asleep v (drop w n) ∨ woken v (drop w n) → asleep v n ∨ woken v n

namespace Notifier

variable {ν ω : Type} (N : Notifier ν ω) {n : ν} {w : ω}

/-- The future waits at the notifier, notified or not. -/
def Uses (w : ω) (n : ν) : Prop := N.asleep w n ∨ N.woken w n

/-- The future would not wait if it looked now. -/
def Hears (w : ω) (n : ν) : Prop := N.permit n ∨ N.woken w n

theorem not_asleep_of_hears (h : N.Hears w n) : ¬N.asleep w n := by
  intro hasleep
  obtain ⟨hpermit, hwoken⟩ := N.exclusive hasleep
  exact h.elim hpermit hwoken

/-- With no other future at the notifier, a notification is heard. -/
theorem hears_notifyOne (halone : ∀ v, N.Uses v n → v = w) : N.Hears w (N.notifyOne n) := by
  rcases N.notifyOne_heard n with hpermit | ⟨v, hasleep, hwoken⟩
  · exact .inl hpermit
  · obtain rfl := halone v (.inl hasleep)
    exact .inr hwoken

end Notifier

/-! ### A queue of waiting futures -/

/-- A permit is stored only while nobody waits; the first that waits is woken first. -/
structure WaitQueue (ω : Type) where
  permit : Bool
  waiting : List ω
  woken : List ω
  exclusive : permit = true → waiting = []
  nodup : waiting.Nodup
  apart : ∀ w ∈ waiting, w ∉ woken

namespace WaitQueue

variable {ω : Type} [DecidableEq ω]

def empty : WaitQueue ω := ⟨false, [], [], fun _ => rfl, List.nodup_nil, by simp⟩

def notifyOne : WaitQueue ω → WaitQueue ω
  | ⟨_, [], woken, _, _, _⟩ => ⟨true, [], woken, fun _ => rfl, List.nodup_nil, by simp⟩
  | ⟨_, w :: rest, woken, _, hnodup, hapart⟩ =>
    ⟨false, rest, w :: woken, nofun, (List.nodup_cons.mp hnodup).2, fun v hv => by
      simp only [List.mem_cons, not_or]
      refine ⟨?_, hapart v (List.mem_cons_of_mem w hv)⟩
      rintro rfl
      exact (List.nodup_cons.mp hnodup).1 hv⟩

/-- Take the future out of those that were woken. -/
def unwake (w : ω) (q : WaitQueue ω) : WaitQueue ω :=
  { q with
    woken := q.woken.filter (· ≠ w)
    apart := fun v hv hmem => q.apart v hv (List.mem_of_mem_filter hmem) }

/-- A new future waits behind the others. -/
def join (w : ω) (q : WaitQueue ω) (hwaiting : w ∉ q.waiting) (hwoken : w ∉ q.woken) :
    WaitQueue ω where
  permit := false
  waiting := q.waiting ++ [w]
  woken := q.woken
  exclusive := nofun
  nodup := by
    refine List.nodup_append.mpr ⟨q.nodup, List.pairwise_singleton _ w, fun a ha b hb => ?_⟩
    rintro rfl
    exact hwaiting (List.mem_singleton.mp hb ▸ ha)
  apart := fun v hv => by
    rcases List.mem_append.mp hv with hv | hv
    · exact q.apart v hv
    · rwa [List.mem_singleton.mp hv]

def poll (w : ω) (q : WaitQueue ω) : Bool × WaitQueue ω :=
  if hwoken : w ∈ q.woken then (true, q.unwake w)
  else if q.permit then (true, { q with permit := false, exclusive := nofun })
  else if hwaiting : w ∈ q.waiting then (false, q)
  else (false, q.join w hwaiting hwoken)

def drop (w : ω) (q : WaitQueue ω) : WaitQueue ω :=
  if w ∈ q.woken then (q.unwake w).notifyOne
  else { q with
    waiting := q.waiting.filter (· ≠ w)
    exclusive := fun h => by rw [q.exclusive h, List.filter_nil]
    nodup := q.nodup.filter _
    apart := fun v hv => q.apart v (List.mem_of_mem_filter hv) }

variable {v w : ω} {q : WaitQueue ω}

omit [DecidableEq ω] in
theorem notifyOne_cases (q : WaitQueue ω) :
    (q.notifyOne.permit = true ∧ q.waiting = [] ∧ q.notifyOne.woken = q.woken ∧
        q.notifyOne.waiting = []) ∨
      ∃ w, q.waiting = w :: q.notifyOne.waiting ∧ q.notifyOne.woken = w :: q.woken := by
  obtain ⟨permit, waiting, woken, hexclusive, hnodup, hapart⟩ := q
  cases waiting with
  | nil => exact .inl ⟨rfl, rfl, rfl, rfl⟩
  | cons w rest => exact .inr ⟨w, rfl, rfl⟩

omit [DecidableEq ω] in
theorem mem_notifyOne (h : w ∈ q.notifyOne.waiting ∨ w ∈ q.notifyOne.woken) :
    w ∈ q.waiting ∨ w ∈ q.woken := by
  rcases q.notifyOne_cases with ⟨_, hwaiting, hwoken, hnone⟩ | ⟨v, hwaiting, hwoken⟩
  · rw [hnone, hwoken] at h
    exact .inr (h.resolve_left List.not_mem_nil)
  · rw [hwoken] at h
    rw [hwaiting]
    rcases h with h | h
    · exact .inl (List.mem_cons_of_mem _ h)
    · rcases List.mem_cons.mp h with rfl | h
      · exact .inl List.mem_cons_self
      · exact .inr h

theorem mem_unwake : v ∈ (q.unwake w).woken ↔ v ∈ q.woken ∧ v ≠ w := by
  simp [unwake]

/-- The cases of `poll`. -/
theorem poll_cases (w : ω) (q : WaitQueue ω) :
    (w ∈ q.woken ∧ q.poll w = (true, q.unwake w)) ∨
      (w ∉ q.woken ∧ q.permit = true ∧ q.waiting = [] ∧ (q.poll w).1 = true ∧
        (q.poll w).2.waiting = [] ∧ (q.poll w).2.woken = q.woken) ∨
      (w ∉ q.woken ∧ q.permit = false ∧ (q.poll w).1 = false ∧ (q.poll w).2.woken = q.woken ∧
        ∀ v, v ∈ (q.poll w).2.waiting ↔ v ∈ q.waiting ∨ v = w) := by
  unfold poll
  by_cases hwoken : w ∈ q.woken
  · rw [dif_pos hwoken]
    exact .inl ⟨hwoken, rfl⟩
  · rw [dif_neg hwoken]
    cases hpermit : q.permit with
    | true => exact .inr (.inl ⟨hwoken, rfl, q.exclusive hpermit, rfl, q.exclusive hpermit, rfl⟩)
    | false =>
        refine .inr (.inr ⟨hwoken, rfl, ?_⟩)
        rw [if_neg Bool.false_ne_true]
        by_cases hwaiting : w ∈ q.waiting
        · rw [dif_pos hwaiting]
          refine ⟨rfl, rfl, fun v => ⟨.inl, ?_⟩⟩
          rintro (hv | rfl)
          · exact hv
          · exact hwaiting
        · rw [dif_neg hwaiting]
          exact ⟨rfl, rfl, fun v => by rw [join, List.mem_append, List.mem_singleton]⟩

theorem drop_done (w : ω) (q : WaitQueue ω) :
    w ∉ (q.drop w).waiting ∧ w ∉ (q.drop w).woken := by
  unfold drop
  split
  · rename_i hwoken
    rw [← not_or]
    intro h
    rcases mem_notifyOne h with hmem | hmem
    · exact q.apart w hmem hwoken
    · exact (mem_unwake.mp hmem).2 rfl
  · rename_i hwoken
    exact ⟨by simp, hwoken⟩

theorem mem_drop (h : v ∈ (q.drop w).waiting ∨ v ∈ (q.drop w).woken) :
    v ∈ q.waiting ∨ v ∈ q.woken := by
  unfold drop at h
  split at h
  · exact (mem_notifyOne h).imp_right fun hmem => (mem_unwake.mp hmem).1
  · exact h.imp_left List.mem_of_mem_filter

end WaitQueue

/-- The queue is a notifier. -/
def waitQueues (ω : Type) [DecidableEq ω] : Notifier (WaitQueue ω) ω where
  new := .empty
  notifyOne := WaitQueue.notifyOne
  poll := WaitQueue.poll
  drop := WaitQueue.drop
  permit := fun q => q.permit = true
  asleep := fun w q => w ∈ q.waiting
  woken := fun w q => w ∈ q.woken
  exclusive := fun {w q} hw => by
    refine ⟨fun h => ?_, q.apart w hw⟩
    rw [q.exclusive h] at hw
    cases hw
  new_idle := fun w => ⟨List.not_mem_nil, List.not_mem_nil⟩
  notifyOne_heard := fun q => by
    rcases q.notifyOne_cases with ⟨hpermit, -⟩ | ⟨w, hwaiting, hwoken⟩
    · exact .inl hpermit
    · exact .inr ⟨w, hwaiting ▸ List.mem_cons_self, hwoken ▸ List.mem_cons_self⟩
  notifyOne_users := fun w q => WaitQueue.mem_notifyOne
  poll_ready := fun w q => by
    rcases q.poll_cases w with ⟨hwoken, h⟩ | ⟨_, hpermit, _, h, _⟩ | ⟨hwoken, hpermit, h, _⟩
    · simp [h, hwoken]
    · simp [h, hpermit]
    · simp [h, hpermit, hwoken]
  poll_pending := fun w q hpending => by
    rcases q.poll_cases w with ⟨_, h⟩ | ⟨_, _, _, h, _⟩ | ⟨_, _, _, _, hmem⟩
    · rw [h] at hpending
      cases hpending
    · cases hpending.symm.trans h
    · exact (hmem w).mpr (.inr rfl)
  poll_done := fun w q hdone => by
    rcases q.poll_cases w with ⟨hwoken, h⟩ | ⟨hwoken, _, _, _, hnone, hsame⟩ | ⟨_, _, h, _⟩
    · rw [h]
      exact ⟨fun hw => q.apart w hw hwoken, fun hw => (WaitQueue.mem_unwake.mp hw).2 rfl⟩
    · rw [hnone, hsame]
      exact ⟨List.not_mem_nil, hwoken⟩
    · cases hdone.symm.trans h
  poll_users := fun v w q hv => by
    rcases q.poll_cases w with ⟨_, h⟩ | ⟨_, _, _, _, hnone, hsame⟩ | ⟨_, _, _, hsame, hmem⟩
    · rw [h] at hv
      exact .inl (hv.imp_right fun hmem => (WaitQueue.mem_unwake.mp hmem).1)
    · rw [hnone, hsame] at hv
      exact .inl (.inr (hv.resolve_left List.not_mem_nil))
    · rw [hmem, hsame] at hv
      rcases hv with (hv | hv) | hv
      · exact .inl (.inl hv)
      · exact .inr hv
      · exact .inl (.inr hv)
  drop_done := fun w q => q.drop_done w
  drop_users := fun v w q => WaitQueue.mem_drop

end Distllm
