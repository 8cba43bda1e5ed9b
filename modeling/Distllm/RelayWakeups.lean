import Distllm.RelayLockstep
import Distllm.RelayWaits

/-! No wake-up of the Rust relay is lost at a handle where one poll waits at most. Whenever a task
waits in the queue of the handle, the poll has been notified, or it will be by the operation that
holds the lock. -/

namespace Distllm.Relay

open Relay.Inner

variable {ν : Type} {N : Notifier ν Nat} {settings : Settings}
  {readValue : Bytes → Option Value} {s s' : Polling ν} {id n : Nat} {p : Poll} {key : Key}
  {move : Move}

namespace Poll

theorem names_of_handle (h : p.handle key = some n) : p.Names key := by
  unfold handle at h
  split at h
  · split at h
    · rename_i hkey
      exact .inl hkey
    · split at h
      · rename_i hkey
        exact .inr hkey
      · cases h
  · cases h
  · cases h

theorem handle_of_not_waiting (h : ∀ own shared, p.phase ≠ .waiting own shared) :
    p.handle key = none := by
  unfold handle
  split
  · rename_i own shared hphase
    exact absurd hphase (h own shared)
  · rfl
  · rfl

end Poll

namespace Polling

@[simp] theorem alter_handles (s : Polling ν) (key : Key) (n : Nat) (f : ν → ν) (k : Key) (m : Nat) :
    (s.alter key n f).handles k m =
      if k = key ∧ m = n then f (s.handles k m) else s.handles k m := rfl

/-- Handles are numbered from the first on; those at which a poll waits are its own, and the handle
of a role stays in the map. -/
structure Wired (N : Notifier ν Nat) (s : Polling ν) : Prop where
  made : ∀ key n, s.notify.lookup key = some n → n < s.made
  held : ∀ id p key n, s.polls.lookup id = some p → p.handle key = some n → n < s.made
  users : ∀ id key n, N.Uses id (s.handles key n) →
    ∃ p, s.polls.lookup id = some p ∧ p.handle key = some n
  kept : ∀ id p role n, s.polls.lookup id = some p → p.handle (.role role) = some n →
    s.notify.lookup (.role role) = some n

/-- At most one open poll is for the queue of the key. -/
def Solo (key : Key) (s : Polling ν) : Prop :=
  ∀ id p id' p', s.polls.lookup id = some p → s.polls.lookup id' = some p' → p.Names key →
    p'.Names key → id = id'

/-- A poll that waits at the handle of a queue where a task waits has been notified, or will be. -/
def Heard (N : Notifier ν Nat) (key : Key) (s : Polling ν) : Prop :=
  ∀ id p n, s.polls.lookup id = some p → p.handle key = some n → s.notify.lookup key = some n →
    s.relay.inner.queuedAt key ≠ [] → .push key ∈ s.ringing ∨ N.Hears id (s.handles key n)

/-! ### Handles -/

/-- Making the handle of a key: nobody waits at it yet, and all other handles stay. -/
structure Made (N : Notifier ν Nat) (key : Key) (s : Polling ν) (n : Nat) (s' : Polling ν) :
    Prop where
  relay : s'.relay = s.relay
  polls : s'.polls = s.polls
  ringing : s'.ringing = s.ringing
  later : s.made ≤ s'.made
  lookup : ∀ k, s'.notify.lookup k = if k = key then some n else s.notify.lookup k
  old : s.notify.lookup key = some n ∨ s.notify.lookup key = none ∧ n = s.made ∧ n < s'.made
  handles : ∀ k m, s'.handles k m = s.handles k m ∨ m = s.made ∧ s'.handles k m = N.new
  other : ∀ k m, k ≠ key → s'.handles k m = s.handles k m

theorem notifier_made (N : Notifier ν Nat) (s : Polling ν) (key : Key) :
    Made N key s (s.notifier N key).1 (s.notifier N key).2 := by
  unfold notifier
  split
  · rename_i n hkey
    refine ⟨rfl, rfl, rfl, Nat.le_refl _, fun k => ?_, .inl hkey, fun k m => .inl rfl,
      fun k m _ => rfl⟩
    dsimp only
    split
    · rename_i hk
      rw [hk, hkey]
    · rfl
  · rename_i hkey
    refine ⟨rfl, rfl, rfl, Nat.le_succ _, fun k => AList.lookup_insert_eq .., ?_, fun k m => ?_,
      fun k m hk => ?_⟩
    · exact .inr ⟨hkey, rfl, Nat.lt_succ_self _⟩
    · dsimp only
      rw [alter_handles]
      split
      · rename_i hkm
        exact .inr ⟨hkm.2, rfl⟩
      · exact .inl rfl
    · dsimp only
      rw [alter_handles, if_neg fun hkm => hk hkm.1]

theorem Made.wired (h : Made N key s n s') (hs : s.Wired N) : s'.Wired N where
  made := fun k m hm => by
    rw [h.lookup] at hm
    split at hm
    · obtain rfl := Option.some.inj hm
      rcases h.old with hold | ⟨_, _, hlt⟩
      · exact Nat.lt_of_lt_of_le (hs.made key n hold) h.later
      · exact hlt
    · exact Nat.lt_of_lt_of_le (hs.made k m hm) h.later
  held := fun id p k m hp hm => Nat.lt_of_lt_of_le (hs.held id p k m (h.polls ▸ hp) hm) h.later
  users := fun id k m hm => by
    rw [h.polls]
    rcases h.handles k m with hsame | ⟨_, hnew⟩
    · exact hs.users id k m (hsame ▸ hm)
    · rw [hnew] at hm
      obtain ⟨hasleep, hwoken⟩ := N.new_idle id
      exact (hm.elim hasleep hwoken).elim
  kept := fun id p role m hp hm => by
    have hkept := hs.kept id p role m (h.polls ▸ hp) hm
    rw [h.lookup]
    split
    · rename_i hkey
      rcases h.old with hold | ⟨hnone, _⟩
      · rw [← hold, ← hkey]
        exact hkept
      · rw [← hkey, hkept] at hnone
        cases hnone
    · exact hkept

theorem Made.handle (h : Made N key s n s') (hs : s.Wired N) {k : Key} {m : Nat}
    (hpoll : s.polls.lookup id = some p) (hhandle : p.handle k = some m) :
    s'.handles k m = s.handles k m := by
  rcases h.handles k m with hsame | ⟨rfl, _⟩
  · exact hsame
  · exact absurd (hs.held id p k s.made hpoll hhandle) (Nat.lt_irrefl _)

/-! ### The shape of the polls -/

theorem Wired.alter (hs : s.Wired N) {f : ν → ν}
    (hf : ∀ x, N.Uses x (f (s.handles key n)) → N.Uses x (s.handles key n) ∨
      ∃ p, s.polls.lookup x = some p ∧ p.handle key = some n) : (s.alter key n f).Wired N where
  made := hs.made
  held := hs.held
  users := fun id k m hm => by
    rw [alter_handles] at hm
    split at hm
    · rename_i hkm
      obtain ⟨rfl, rfl⟩ := hkm
      exact (hf id hm).elim (hs.users id k m) fun h => h
    · exact hs.users id k m hm
  kept := hs.kept

theorem Wired.notifyOne (hs : s.Wired N) (key : Key) (n : Nat) :
    (s.alter key n N.notifyOne).Wired N :=
  hs.alter fun x hx => .inl (N.notifyOne_users x _ hx)

theorem Wired.poll (hs : s.Wired N) (hpoll : s.polls.lookup id = some p)
    (hhandle : p.handle key = some n) :
    (s.alter key n fun v => (N.poll id v).2).Wired N := by
  refine hs.alter fun x hx => ?_
  rcases N.poll_users x id _ hx with huses | rfl
  · exact .inl huses
  · exact .inr ⟨p, hpoll, hhandle⟩

/-- A poll that drops its futures waits nowhere any more. -/
theorem Wired.leave (hs : s.Wired N) (hpoll : s.polls.lookup id = some p)
    (polls : AList fun _ : Nat => Poll) (hother : ∀ x, x ≠ id → polls.lookup x = s.polls.lookup x)
    (hgone : ∀ q key, polls.lookup id = some q → q.handle key = none) :
    Wired N { s.unwait N id p with polls := polls } := by
  have hlookup : ∀ x q k m, polls.lookup x = some q → q.handle k = some m →
      s.polls.lookup x = some q := by
    intro x q k m hq hm
    by_cases hx : x = id
    · rw [hgone q k (hx ▸ hq)] at hm
      cases hm
    · exact (hother x hx).symm.trans hq
  refine ⟨hs.made, fun x q k m hq hm => hs.held x q k m (hlookup x q k m hq hm) hm,
    fun x k m hx => ?_, fun x q role m hq hm => hs.kept x q role m (hlookup x q _ m hq hm) hm⟩
  dsimp only [unwait] at hx ⊢
  have hbefore : N.Uses x (s.handles k m) ∧ x ≠ id := by
    split at hx
    · refine ⟨N.drop_users x id _ hx, ?_⟩
      rintro rfl
      obtain ⟨hasleep, hwoken⟩ := N.drop_done x (s.handles k m)
      exact hx.elim hasleep hwoken
    · rename_i hother
      refine ⟨hx, ?_⟩
      rintro rfl
      obtain ⟨q, hq, hm⟩ := hs.users x k m hx
      obtain rfl := Option.some.inj (hq.symm.trans hpoll)
      exact hother hm
  obtain ⟨q, hq, hm⟩ := hs.users x k m hbefore.1
  exact ⟨q, (hother x hbefore.2).trans hq, hm⟩

theorem unwait_eq_self (h : ∀ key, p.handle key = none) : s.unwait N id p = s := by
  have hsame : ∀ k m, ¬p.handle k = some m := fun k m hm => by
    rw [h] at hm
    cases hm
  unfold unwait
  simp only [hsame, if_false]

/-- A poll that has no handles is gone. -/
theorem Wired.erase (hs : s.Wired N) (hpoll : s.polls.lookup id = some p)
    (hphase : ∀ own shared, p.phase ≠ .waiting own shared) :
    Wired N { s with polls := s.polls.erase id } := by
  have hleft := hs.leave hpoll (s.polls.erase id)
    (fun x hx => by rw [AList.lookup_erase_eq, if_neg hx])
    fun q key hq => by rw [AList.lookup_erase] at hq; cases hq
  rwa [unwait_eq_self fun key => Poll.handle_of_not_waiting hphase] at hleft

/-- The new entry of a poll that has no handles. -/
theorem Wired.insert (hs : s.Wired N) (hnew : ∀ q, s.polls.lookup id = some q →
      ∀ key, q.handle key = none) (hmade : ∀ key n, p.handle key = some n → n < s.made)
    (hkept : ∀ role n, p.handle (.role role) = some n →
      s.notify.lookup (.role role) = some n) :
    Wired N { s with polls := s.polls.insert id p } where
  made := hs.made
  held := fun x q k m hq hm => by
    rw [AList.lookup_insert_eq] at hq
    split at hq
    · obtain rfl := Option.some.inj hq
      exact hmade k m hm
    · exact hs.held x q k m hq hm
  users := fun x k m hx => by
    obtain ⟨q, hq, hm⟩ := hs.users x k m hx
    refine ⟨q, ?_, hm⟩
    rw [AList.lookup_insert_eq, if_neg]
    · exact hq
    · rintro rfl
      rw [hnew q hq k] at hm
      cases hm
  kept := fun x q role m hq hm => by
    rw [AList.lookup_insert_eq] at hq
    split at hq
    · obtain rfl := Option.some.inj hq
      exact hkept role m hm
    · exact hs.kept x q role m hq hm

/-- A poll that found nothing has the handles of its worker and its role. -/
theorem sleep_made (N : Notifier ν Nat) (s : Polling ν) (id : Nat) (p : Poll) :
    ∃ own shared s₁ s₂, Made N (.worker p.worker) s own s₁ ∧ Made N (.role p.role) s₁ shared s₂ ∧
      s.sleep N id p =
        { s₂ with polls := s₂.polls.insert id { p with phase := .waiting own shared } } :=
  ⟨_, _, _, _, notifier_made N s _, notifier_made N _ _, rfl⟩

theorem Wired.sleep (hs : s.Wired N) (hpoll : s.polls.lookup id = some p)
    (hphase : p.phase = .looking) : (s.sleep N id p).Wired N := by
  obtain ⟨own, shared, s₁, s₂, hown, hshared, hsleep⟩ := sleep_made N s id p
  have hs₂ := hshared.wired (hown.wired hs)
  have hworker : s₂.notify.lookup (.worker p.worker) = some own := by
    rw [hshared.lookup, if_neg nofun, hown.lookup, if_pos rfl]
  have hrole : s₂.notify.lookup (.role p.role) = some shared := by
    rw [hshared.lookup, if_pos rfl]
  have hcurrent : ∀ key n, Poll.handle { p with phase := .waiting own shared } key = some n →
      s₂.notify.lookup key = some n := by
    intro key n hn
    unfold Poll.handle at hn
    dsimp only at hn
    split at hn
    · rename_i hkey
      rw [hkey, hworker, hn]
    · split at hn
      · rename_i hkey
        rw [hkey, hrole, hn]
      · cases hn
  rw [hsleep]
  refine hs₂.insert (fun q hq key => ?_) (fun key n hn => hs₂.made key n (hcurrent key n hn))
    fun role n hn => hcurrent _ n hn
  rw [hshared.polls, hown.polls, hpoll] at hq
  obtain rfl := Option.some.inj hq
  refine Poll.handle_of_not_waiting fun own shared h => ?_
  rw [hphase] at h
  cases h

theorem Wired.erase_key (hs : s.Wired N) (worker : String) :
    Wired N { s with notify := s.notify.erase (.worker worker) } where
  made := fun k m hm => by
    rw [AList.lookup_erase_eq] at hm
    split at hm
    · cases hm
    · exact hs.made k m hm
  held := hs.held
  users := hs.users
  kept := fun x q role m hq hm => by
    rw [AList.lookup_erase_eq, if_neg nofun]
    exact hs.kept x q role m hq hm

theorem Wired.ring (hs : s.Wired N) (signal : Signal) : (s.ring N signal).Wired N := by
  cases signal with
  | push key => exact ((notifier_made N s key).wired hs).notifyOne key _
  | forget worker => exact hs.erase_key worker

/-- The handles stay in order. -/
theorem wired_step (h : Step N settings readValue s move s') (hs : s.Wired N) : s'.Wired N := by
  have hcopy : ∀ (w : World) (ringing : List Signal) {t : Polling ν}, t.Wired N →
      Wired N { t with relay := w, ringing := ringing } :=
    fun _ _ t ht => ⟨ht.made, ht.held, ht.users, ht.kept⟩
  cases h with
  | arrive role worker maxTasks hnew =>
      refine hs.insert (fun q hq => ?_) nofun nofun
      rw [hnew] at hq
      cases hq
  | found hlock hpoll hphase hstep =>
      exact hcopy _ _ (hs.erase hpoll fun own shared h => by rw [hphase] at h; cases h)
  | sleep hlock hpoll hphase hstep => exact (hcopy _ _ hs).sleep hpoll hphase
  | wake hpoll hhandle hready =>
      refine (hs.poll hpoll hhandle).leave hpoll _
        (fun x hx => (AList.lookup_insert_eq ..).trans (if_neg hx)) fun q key hq => ?_
      rw [AList.lookup_insert] at hq
      obtain rfl := Option.some.inj hq
      rfl
  | arm hpoll hhandle hpending => exact hs.poll hpoll hhandle
  | expire hpoll hphase =>
      refine hs.leave hpoll _ (fun x hx => by rw [AList.lookup_insert_eq, if_neg hx])
        fun q key hq => ?_
      rw [AList.lookup_insert] at hq
      obtain rfl := Option.some.inj hq
      rfl
  | last hlock hpoll hphase hstep =>
      exact hcopy _ _ (hs.erase hpoll fun own shared h => by rw [hphase] at h; cases h)
  | cancel hpoll =>
      refine hs.leave hpoll _ (fun x hx => by rw [AList.lookup_erase_eq, if_neg hx])
        fun q key hq => ?_
      rw [AList.lookup_erase] at hq
      cases hq
  | call hlock hop hstep => exact hcopy _ _ hs
  | ring hringing => exact hcopy _ _ (hs.ring _)
  | rehash hstep => exact hcopy _ _ hs

/-! ### What a poll hears -/

/-- Another poll for the queue of the key there is not. -/
theorem Solo.not_names (hsolo : s.Solo key) (hpoll : s.polls.lookup id = some p) {x m : Nat} {q : Poll}
    (hother : s.polls.lookup x = some q) (hhandle : q.handle key = some m) (hne : x ≠ id) :
    ¬p.Names key :=
  fun hnames => hne (hsolo x q id p hother hpoll (Poll.names_of_handle hhandle) hnames)

theorem step_rings {w w' : World} {op : Op} {answer : Answer} {now : Instant}
    (h : Relay.Step settings readValue w (.call op answer now) w') (hw : w.QueuesInv) :
    w.inner.Rings (signals settings readValue op now w.inner) w'.inner := by
  cases h with
  | call hclock htimely hfresh =>
      exact exec_rings op hw.exact fun id hid => hw.known.fresh (hfresh id hid)

/-- A poll that gets nothing leaves nothing in its queues. -/
theorem step_empty {w w' : World} {role worker : String} {maxTasks : Nat} {now : Instant}
    (h : Relay.Step settings readValue w (.call (.poll role worker maxTasks) (.tasks []) now) w')
    (hw : w.QueuesInv) :
    w'.inner.queuedAt (.worker worker) = [] ∧ w'.inner.queuedAt (.role role) = [] := by
  have hrings := step_rings h hw
  have hanswer : (poll w.inner role worker maxTasks now).1 = [] := by
    generalize htasks : Answer.tasks [] = answer at h
    cases h with
    | call hclock htimely hfresh => exact (Answer.tasks.inj htasks).symm
  rw [(poll_dealt hw.exact role worker maxTasks now).1] at hanswer
  have hwaiting : w.inner.waiting worker role = [] :=
    (List.take_eq_nil_iff.mp (Lockstep.batch_eq_nil hanswer)).resolve_left (by omega)
  rw [waiting_eq, List.append_eq_nil_iff] at hwaiting
  exact ⟨hrings _ hwaiting.1 List.not_mem_nil, hrings _ hwaiting.2 List.not_mem_nil⟩

/-- What a poll hears stays heard while its handle and its queue stay as they are. -/
theorem Heard.mono (hs : s.Heard N key) (hringing : s.ringing = [])
    (hpolls : ∀ x q m, s'.polls.lookup x = some q → q.handle key = some m →
      s'.notify.lookup key = some m → s.polls.lookup x = some q ∧ s.notify.lookup key = some m ∧
        s'.handles key m = s.handles key m)
    (hrelay : s.relay.inner.Rings s'.ringing s'.relay.inner) : s'.Heard N key := by
  intro x q m hq hm hcurrent hqueued
  obtain ⟨hbefore, hlookup, hsame⟩ := hpolls x q m hq hm hcurrent
  by_cases hnone : s.relay.inner.queuedAt key = []
  · left
    by_contra hsilent
    exact hqueued (hrelay key hnone hsilent)
  · rcases hs x q m hbefore hm hlookup hnone with hmem | hhears
    · rw [hringing] at hmem
      cases hmem
    · exact .inr (hsame ▸ hhears)

theorem heard_sleep {w : World} {now : Instant} (hs : s.Heard N key) (hwired : s.Wired N)
    (hinv : s.relay.QueuesInv) (hsolo : s.Solo key) (hlock : s.ringing = [])
    (hpoll : s.polls.lookup id = some p)
    (hstep : Relay.Step settings readValue s.relay
      (.call (.poll p.role p.worker p.maxTasks) (.tasks []) now) w) :
    Heard N key ({ s with relay := w }.sleep N id p) := by
  obtain ⟨own, shared, s₁, s₂, hown, hshared, hsleep⟩ := sleep_made N { s with relay := w } id p
  have hcopy : Wired N { s with relay := w } :=
    ⟨hwired.made, hwired.held, hwired.users, hwired.kept⟩
  obtain ⟨hworker, hrole⟩ := step_empty hstep hinv
  have hrelay : s₂.relay = w := hshared.relay.trans hown.relay
  have hpolls : s₂.polls = s.polls := hshared.polls.trans hown.polls
  rw [hsleep]
  by_cases hnames : p.Names key
  · -- nothing waits in the queues of the poll, and there is no other poll for them
    intro x q m hq hm hcurrent hqueued
    refine absurd ?_ hqueued
    dsimp only
    rw [hrelay]
    rcases hnames with rfl | rfl
    · exact hworker
    · exact hrole
  · refine hs.mono hlock (fun x q m hq hm hcurrent => ?_) ?_
    · have hne : x ≠ id := by
        rintro rfl
        dsimp only at hq
        rw [AList.lookup_insert] at hq
        obtain rfl := Option.some.inj hq
        have hsame : Poll.Names { p with phase := .waiting own shared } key :=
          Poll.names_of_handle hm
        exact hnames hsame
      dsimp only at hq hcurrent ⊢
      rw [AList.lookup_insert_eq, if_neg hne, hpolls] at hq
      rw [hshared.lookup, if_neg fun h => hnames (.inr h), hown.lookup,
        if_neg fun h => hnames (.inl h)] at hcurrent
      refine ⟨hq, hcurrent, ?_⟩
      rw [hshared.handle (hown.wired hcopy) (hown.polls ▸ hq) hm, hown.handle hcopy hq hm]
    · dsimp only
      rw [hrelay, hshared.ringing, hown.ringing, hlock]
      exact step_rings hstep hinv

/-- What one poll does at its own handles no other poll notices. -/
theorem heard_self (hs : s.Heard N key) (hsolo : s.Solo key) (hpoll : s.polls.lookup id = some p)
    (hrelay : s'.relay = s.relay) (hringing : s'.ringing = s.ringing)
    (hnotify : s'.notify = s.notify)
    (hhandles : ∀ k m, ¬p.Names k → s'.handles k m = s.handles k m)
    (hother : ∀ x, x ≠ id → s'.polls.lookup x = s.polls.lookup x)
    (hself : ∀ q m, s'.polls.lookup id = some q → q.handle key = some m →
      s.polls.lookup id = some q ∧
        (N.Hears id (s.handles key m) → N.Hears id (s'.handles key m))) : s'.Heard N key := by
  intro x q m hq hm hcurrent hqueued
  rw [hrelay] at hqueued
  rw [hnotify] at hcurrent
  rw [hringing]
  by_cases hx : x = id
  · subst hx
    obtain ⟨hbefore, hears⟩ := hself q m hq hm
    exact (hs x q m hbefore hm hcurrent hqueued).imp_right hears
  · rw [hother x hx] at hq
    rw [hhandles key m (hsolo.not_names hpoll hq hm hx)]
    exact hs x q m hq hm hcurrent hqueued

theorem unwait_handles (hnames : ¬p.Names key) (s : Polling ν) (m : Nat) :
    (s.unwait N id p).handles key m = s.handles key m :=
  if_neg fun h => hnames (Poll.names_of_handle h)

theorem heard_ring {signal : Signal} {rest : List Signal} (hs : s.Heard N key) (hwired : s.Wired N)
    (hsolo : s.Solo key) (hringing : s.ringing = signal :: rest) :
    Heard N key { s.ring N signal with ringing := rest } := by
  intro x q m hq hm hcurrent hqueued
  dsimp only at hq hcurrent hqueued ⊢
  have hrest : ∀ {k : Key}, signal ≠ .push k → .push k ∈ s.ringing → .push k ∈ rest := by
    intro k hne hmem
    rw [hringing] at hmem
    exact (List.mem_cons.mp hmem).resolve_left (Ne.symm hne)
  cases signal with
  | forget worker =>
      dsimp only [Polling.ring] at hq hcurrent hqueued ⊢
      rw [AList.lookup_erase_eq] at hcurrent
      split at hcurrent
      · cases hcurrent
      · exact (hs x q m hq hm hcurrent hqueued).imp_left (hrest nofun)
  | push k =>
      have hmade := notifier_made N s k
      dsimp only [Polling.ring] at hq hcurrent hqueued ⊢
      generalize s.notifier N k = made at hmade hq hcurrent hqueued ⊢
      obtain ⟨n, t⟩ := made
      dsimp only [alter] at hmade hq hcurrent hqueued ⊢
      rw [hmade.polls] at hq
      rw [hmade.relay] at hqueued
      by_cases hkey : key = k
      · subst hkey
        right
        have hnumber : n = m := by
          rw [hmade.lookup, if_pos rfl] at hcurrent
          exact Option.some.inj hcurrent
        rw [if_pos ⟨rfl, hnumber.symm⟩, hmade.handle hwired hq hm]
        refine N.hears_notifyOne fun y hy => ?_
        obtain ⟨r, hr, hhandle⟩ := hwired.users y key m hy
        exact hsolo y r x q hr hq (Poll.names_of_handle hhandle) (Poll.names_of_handle hm)
      · rw [if_neg fun h => hkey h.1, hmade.handle hwired hq hm]
        rw [hmade.lookup, if_neg hkey] at hcurrent
        exact (hs x q m hq hm hcurrent hqueued).imp_left
          (hrest fun h => hkey (Signal.push.inj h).symm)

/-- A poll that has dropped its futures has nothing to hear. -/
theorem heard_leave (hs : s.Heard N key) (hsolo : s.Solo key) (hpoll : s.polls.lookup id = some p)
    (polls : AList fun _ : Nat => Poll) (hother : ∀ x, x ≠ id → polls.lookup x = s.polls.lookup x)
    (hgone : ∀ q key, polls.lookup id = some q → q.handle key = none) :
    Heard N key { s.unwait N id p with polls := polls } := by
  refine heard_self hs hsolo hpoll rfl rfl rfl (fun k m hk => unwait_handles hk s m) hother
    fun q m hq hm => ?_
  rw [hgone q key hq] at hm
  cases hm

theorem heard_poll (hs : s.Heard N key) (hsolo : s.Solo key) (hpoll : s.polls.lookup id = some p)
    {k : Key} (hhandle : p.handle k = some n) (hpending : (N.poll id (s.handles k n)).1 = false) :
    (s.alter k n fun v => (N.poll id v).2).Heard N key := by
  refine heard_self hs hsolo hpoll rfl rfl rfl (fun j m hj => ?_) (fun _ _ => rfl)
    fun q m hq hm => ⟨hq, fun hhears => ?_⟩
  · rw [alter_handles, if_neg]
    rintro ⟨rfl, _⟩
    exact hj (Poll.names_of_handle hhandle)
  · rw [alter_handles]
    split
    · rename_i hkm
      obtain ⟨rfl, rfl⟩ := hkm
      cases hpending.symm.trans ((N.poll_ready id _).mpr hhears)
    · exact hhears

/-- After the poll of a branch, whatever it brought, the poll leaves. -/
theorem heard_wake (hs : s.Heard N key) (hsolo : s.Solo key) (hpoll : s.polls.lookup id = some p)
    {k : Key} (hhandle : p.handle k = some n) (f : ν → ν) :
    Heard N key { (s.alter k n f).unwait N id p with
      polls := s.polls.insert id { p with phase := .looking } } := by
  refine heard_self hs hsolo hpoll rfl rfl rfl (fun j m hj => ?_)
    (fun x hx => (AList.lookup_insert_eq ..).trans (if_neg hx)) fun q m hq hm => ?_
  · apply (unwait_handles hj (s.alter k n f) m).trans
    rw [alter_handles, if_neg]
    rintro ⟨rfl, _⟩
    exact hj (Poll.names_of_handle hhandle)
  · dsimp only at hq
    rw [AList.lookup_insert] at hq
    obtain rfl := Option.some.inj hq
    cases hm

theorem heard_step (h : Step N settings readValue s move s') (hs : s.Heard N key)
    (hwired : s.Wired N) (hinv : s.relay.QueuesInv) (hsolo : s.Solo key) : s'.Heard N key := by
  cases h with
  | arrive role worker maxTasks hnew =>
      intro x q m hq hm hcurrent hqueued
      dsimp only at hq
      rw [AList.lookup_insert_eq] at hq
      split at hq
      · obtain rfl := Option.some.inj hq
        cases hm
      · exact hs x q m hq hm hcurrent hqueued
  | found hlock hpoll hphase hstep =>
      refine hs.mono hlock (fun x q m hq hm hcurrent => ?_) ?_
      · dsimp only at hq
        rw [AList.lookup_erase_eq] at hq
        split at hq
        · cases hq
        · exact ⟨hq, hcurrent, rfl⟩
      · exact (step_rings hstep hinv).mono (List.nil_subset _)
  | sleep hlock hpoll hphase hstep =>
      exact heard_sleep hs hwired hinv hsolo hlock hpoll hstep
  | wake hpoll hhandle hready => exact heard_wake hs hsolo hpoll hhandle _
  | arm hpoll hhandle hpending => exact heard_poll hs hsolo hpoll hhandle hpending
  | expire hpoll hphase =>
      refine heard_leave hs hsolo hpoll _ (fun x hx => by rw [AList.lookup_insert_eq, if_neg hx])
        fun q k hq => ?_
      rw [AList.lookup_insert] at hq
      obtain rfl := Option.some.inj hq
      rfl
  | last hlock hpoll hphase hstep =>
      refine hs.mono hlock (fun x q m hq hm hcurrent => ?_) ?_
      · dsimp only at hq
        rw [AList.lookup_erase_eq] at hq
        split at hq
        · cases hq
        · exact ⟨hq, hcurrent, rfl⟩
      · exact (step_rings hstep hinv).mono (List.nil_subset _)
  | cancel hpoll =>
      refine heard_leave hs hsolo hpoll _ (fun x hx => by rw [AList.lookup_erase_eq, if_neg hx])
        fun q k hq => ?_
      rw [AList.lookup_erase] at hq
      cases hq
  | call hlock hop hstep =>
      exact hs.mono hlock (fun x q m hq hm hcurrent => ⟨hq, hcurrent, rfl⟩) (step_rings hstep hinv)
  | ring hringing => exact heard_ring hs hwired hsolo hringing
  | rehash hstep =>
      cases hstep with
      | rehash hrehashed =>
          intro x q m hq hm hcurrent hqueued
          dsimp only at hqueued
          rw [hrehashed.alike.queuedAt] at hqueued
          exact hs x q m hq hm hcurrent hqueued

/-! ### Runs -/

/-- A run in which at most one poll for the queue of the key is open at a time. -/
abbrev SoloRun (N : Notifier ν Nat) (settings : Settings) (readValue : Bytes → Option Value)
    (clock : Instant) (key : Key) : List Move → Polling ν → Prop :=
  Run (fun s move s' => Step N settings readValue s move s' ∧ s.Solo key) (start N clock)

theorem queuesInv_polling (h : Step N settings readValue s move s') (hinv : s.relay.QueuesInv) :
    s'.relay.QueuesInv := by
  cases h with
  | arrive role worker maxTasks hnew => exact hinv
  | found hlock hpoll hphase hstep => exact queuesInv_step hstep hinv
  | sleep hlock hpoll hphase hstep =>
      obtain ⟨own, shared, s₁, s₂, hown, hshared, hsleep⟩ := sleep_made N _ _ _
      rw [hsleep]
      dsimp only
      rw [hshared.relay, hown.relay]
      exact queuesInv_step hstep hinv
  | wake hpoll hhandle hready => exact hinv
  | arm hpoll hhandle hpending => exact hinv
  | expire hpoll hphase => exact hinv
  | last hlock hpoll hphase hstep => exact queuesInv_step hstep hinv
  | cancel hpoll => exact hinv
  | call hlock hop hstep => exact queuesInv_step hstep hinv
  | @ring signal rest hringing =>
      cases signal with
      | push k =>
          have hmade := (notifier_made N s k).relay
          dsimp only [Polling.ring, alter]
          rw [hmade]
          exact hinv
      | forget worker => exact hinv
  | rehash hstep => exact queuesInv_step hstep hinv

/-- Where one poll waits at most, it does not sleep while a task waits in its queue: it is about to
look again, unless the operation that holds the lock has still to notify it. A worker's handle must
be the one in the map; a worker that was forgotten gets a new one. -/
theorem waiting_poll_hears {clock : Instant} {moves : List Move}
    (hrun : SoloRun N settings readValue clock key moves s) (hpoll : s.polls.lookup id = some p)
    (hhandle : p.handle key = some n)
    (hcurrent : ∀ worker, key = .worker worker → s.notify.lookup key = some n)
    (hsilent : .push key ∉ s.ringing) (hqueued : s.relay.inner.queuedAt key ≠ []) :
    ¬N.asleep id (s.handles key n) ∧ (N.poll id (s.handles key n)).1 = true := by
  have hall : s.Heard N key ∧ s.Wired N ∧ s.relay.QueuesInv := by
    refine hrun.invariant (P := fun s => s.Heard N key ∧ s.Wired N ∧ s.relay.QueuesInv)
      (fun {s move s'} hstep hs => ?_) ⟨?_, ?_, queuesInv_start clock⟩
    · obtain ⟨hheard, hwired, hinv⟩ := hs
      exact ⟨heard_step hstep.1 hheard hwired hinv hstep.2, wired_step hstep.1 hwired,
        queuesInv_polling hstep.1 hinv⟩
    · intro x q m hq
      cases hq
    · refine ⟨nofun, nofun, fun x k m hx => ?_, nofun⟩
      obtain ⟨hasleep, hwoken⟩ := N.new_idle x
      exact (hx.elim hasleep hwoken).elim
  obtain ⟨hheard, hwired, -⟩ := hall
  have hlookup : s.notify.lookup key = some n := by
    cases key with
    | worker worker => exact hcurrent worker rfl
    | role role => exact hwired.kept id p role n hpoll hhandle
  have hhears := (hheard id p n hpoll hhandle hlookup hqueued).resolve_left hsilent
  exact ⟨N.not_asleep_of_hears hhears, (N.poll_ready id _).mpr hhears⟩

theorem solo_of_keys (i : Nat) (h : ∀ x ∈ s.polls.keys, x = i) : s.Solo key := by
  intro id p id' p' hp hp' _ _
  have hmem : id ∈ s.polls := AList.lookup_isSome.mp (by rw [hp]; rfl)
  have hmem' : id' ∈ s.polls := AList.lookup_isSome.mp (by rw [hp']; rfl)
  exact (h id hmem).trans (h id' hmem').symm

def relaySettings : Settings := ⟨60, 60⟩

/-- A poll goes to sleep, a task is submitted for its role, and the handle is notified. -/
theorem waiting_poll_hears_submitted : ∃ moves s p n,
    SoloRun (waitQueues Nat) relaySettings (fun _ => none) 0 (.role "a") moves s ∧
      s.polls.lookup 1 = some p ∧ p.handle (.role "a") = some n ∧
      ¬(waitQueues Nat).asleep 1 (s.handles (.role "a") n) ∧
      ((waitQueues Nat).poll 1 (s.handles (.role "a") n)).1 = true := by
  have hsolo : ∀ s : Polling (WaitQueue Nat), (∀ x ∈ s.polls.keys, x = 1) → s.Solo (.role "a") :=
    fun s h => solo_of_keys 1 h
  have hrun : SoloRun (waitQueues Nat) relaySettings (fun _ => none) 0 (.role "a")
      [.arrive 1 "a" "w" 1, .look 1 [] 0, .call (.submit "t" "a" [] [] none 0) (.taskId "t") 0,
        .ring] _ :=
    .cons ⟨.arrive "a" "w" 1 rfl, hsolo _ (by decide)⟩ <|
    .cons ⟨.sleep rfl rfl rfl (.call (Nat.le_refl _) trivial nofun), hsolo _ (by decide)⟩ <|
    .cons ⟨.call rfl rfl (.call (Nat.le_refl _) (Nat.le_refl _) (by decide)),
      hsolo _ (by decide)⟩ <|
    .cons ⟨.ring rfl, hsolo _ (by decide)⟩ (.refl _)
  exact ⟨_, _, ⟨"a", "w", 1, .waiting 0 1⟩, 1, hrun, rfl, rfl,
    waiting_poll_hears hrun rfl rfl nofun List.not_mem_nil (by decide)⟩

/-- Two polls for one role can miss a task: the notifications of two tasks are one permit, the first
poll takes it and one task, and the second one sleeps. -/
theorem second_poll_misses : ∃ moves s p n,
    Run (Step (waitQueues Nat) relaySettings fun _ => none) (start (waitQueues Nat) 0) moves s ∧
      s.polls.lookup 2 = some p ∧ p.handle (.role "a") = some n ∧ s.ringing = [] ∧
      (waitQueues Nat).asleep 2 (s.handles (.role "a") n) ∧
      s.relay.inner.queuedAt (.role "a") = ["u"] := by
  have hrun : Run (Step (waitQueues Nat) relaySettings fun _ => none) (start (waitQueues Nat) 0)
      [.arrive 1 "a" "v" 1, .arrive 2 "a" "w" 1, .look 1 [] 0, .look 2 [] 0,
        .call (.submit "t" "a" [] [] none 0) (.taskId "t") 0, .ring,
        .call (.submit "u" "a" [] [] none 0) (.taskId "u") 0, .ring,
        .wake 1 (.role "a"), .look 1 [("t", [])] 0, .arm 2 (.role "a")] _ :=
    .cons (.arrive "a" "v" 1 rfl) <| .cons (.arrive "a" "w" 1 rfl) <|
    .cons (.sleep rfl rfl rfl (.call (Nat.le_refl _) trivial nofun)) <|
    .cons (.sleep rfl rfl rfl (.call (Nat.le_refl _) trivial nofun)) <|
    .cons (.call rfl rfl (.call (Nat.le_refl _) (Nat.le_refl _) (by decide))) <| .cons (.ring rfl) <|
    .cons (.call rfl rfl (.call (Nat.le_refl _) (Nat.le_refl _) (by decide))) <| .cons (.ring rfl) <|
    .cons (.wake rfl rfl rfl) <|
    .cons (.found rfl rfl rfl (.call (Nat.le_refl _) trivial nofun)) <|
    .cons (.arm rfl rfl rfl) (.refl _)
  exact ⟨_, _, ⟨"a", "w", 1, .waiting 2 1⟩, 1, hrun, rfl, rfl, rfl, List.mem_singleton_self _, rfl⟩

end Polling
end Distllm.Relay
