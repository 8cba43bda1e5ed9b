import Distllm.PipelineState
import Distllm.StageCausal

/-! What the requests of a session do to the caches of its replicas. The history of a client says
which sequence the requests of each round carry, and where they may start. A cache holds the
sequence of the round in which it was last written, a request carries the sequence of its own
round; the rest is whether the two agree up to the start of the request. -/

namespace Distllm.Pipeline

open Stage

variable {τ η ℓ κ ρ : Type}

/-! ### The composed model -/

/-- The stages are deterministic and causal. -/
structure Lawful (P : Deployment τ η ℓ κ ρ) where
  dims : List Nat
  first : Law (P.model 0) .inputIds [] dims
  later : ∀ i, i + 1 < P.size → Law (P.model (i + 1)) .inputsEmbeds dims dims

namespace Lawful

variable {P : Deployment τ η ℓ κ ρ} (L : Lawful P)

/-- The hidden states after the stages up to `i`. -/
def hidden : (i : Nat) → i < P.size → Causal τ η
  | 0, _ => L.first.full
  | i + 1, h => (L.later i h).full.comp (hidden i (Nat.lt_of_succ_lt h))

def last : Nat := P.size - 1

theorem last_lt : last (P := P) < P.size := Nat.sub_one_lt_of_lt P.pos

def lmHead (P : Deployment τ η ℓ κ ρ) : η → ℓ := (P.model (last (P := P))).lmHead

/-- The logits of the full model at the last position of a sequence. -/
def logits (ys : List τ) : Option ℓ :=
  (L.hidden last last_lt ys).getLast?.map (lmHead P)

/-- The cache of a stage is that of a pass over the sequence. -/
def HoldsAt : (i : Nat) → i < P.size → Session κ → List τ → Prop
  | 0, _, sess, ys => L.first.Holds sess ys
  | i + 1, h, sess, ys => (L.later i h).Holds sess (L.hidden i (Nat.lt_of_succ_lt h) ys)

/-- The request for a stage carries the sequence from `a` on. -/
structure Carries (sessionId : String) (i : Nat) (hi : i < P.size) (p : Payload τ η)
    (ys : List τ) (a : Nat) : Prop where
  session : p.sessionId = sessionId
  isOpen : p.close = false
  starts : p.startPos = some (a : Int)
  nonempty : a < ys.length
  items : match i, hi with
    | 0, _ => p.inputIds = .tensor (.row [] (ys.drop a))
    | i + 1, h => p.hiddenStates =
        .tensor (.row L.dims ((L.hidden i (Nat.lt_of_succ_lt h) ys).drop a))

variable {L} {sessionId : String} {i : Nat} {hi : i < P.size} {p : Payload τ η} {ys zs : List τ}
  {a : Nat} {sess : Session κ}

theorem HoldsAt.length (h : L.HoldsAt i hi sess ys) : sess.length = ys.length := by
  cases i with
  | zero => exact h.2
  | succ i => exact h.2.trans (congrArg _ (Causal.length_apply ..))

/-- What a replica makes of a request that carries a slice. -/
def answerAt (L : Lawful P) (i : Nat) (hi : i < P.size) (p : Payload τ η) (ys : List τ)
    (a : Nat) : Response τ η ℓ :=
  let h := (L.hidden i hi ys).drop a
  if i + 1 = P.size then
    if p.argmax then .argmax (h.map fun x => (P.model i).argmax ((P.model i).lmHead x))
    else .logits (h.getLast?.toList.map (P.model i).lmHead)
  else .hidden (handOn p (.row L.dims h))

variable {now : Instant} {s : Sessions κ} {r : ρ}

theorem answer_config (h : List η) :
    answer (P.config i r) (P.model i) L.dims p h =
      if i + 1 = P.size then
        if p.argmax then .argmax (h.map fun x => (P.model i).argmax ((P.model i).lmHead x))
        else .logits (h.getLast?.toList.map (P.model i).lmHead)
      else .hidden (handOn p (.row L.dims h)) := by
  unfold answer
  rw [P.isLast i r]
  by_cases hlast : i + 1 = P.size
  · cases hargmax : p.argmax with
    | true => simp [hlast]
    | false => simp [hlast]
  · simp [hlast]

variable (r now) in
/-- A request that carries a slice is a miss, or it is answered from the whole sequence and leaves
its cache, provided that a stored cache that is long enough agrees up to the start. -/
theorem Carries.handle (hid : sessionId ≠ "") (hp : L.Carries sessionId i hi p ys a)
    (hstored : a ≠ 0 → ∀ sess, s.lookup sessionId = some sess → (a : Int) ≤ sess.length →
      ∃ zs, L.HoldsAt i hi sess zs ∧ zs.take a = ys.take a) :
    (∃ cached, Stage.handle (P.config i r) (P.model i) now s ⟨p, .none⟩ =
        (.ok (.cacheMiss cached), s)) ∨
      ∃ s', Stage.handle (P.config i r) (P.model i) now s ⟨p, .none⟩ =
          (.ok (L.answerAt i hi p ys a), s') ∧
        ∀ sess, s'.lookup sessionId = some sess → L.HoldsAt i hi sess ys := by
  obtain ⟨rfl, hopen, hstarts, hnonempty, hitems⟩ := hp
  unfold answerAt
  cases i with
  | zero =>
      have hslice : Slice (P.config 0 r) .inputIds [] p ys a := by
        refine ⟨hid, hopen, hstarts, hnonempty, ?_⟩
        rw [inputs, P.isFirst 0 r, decide_eq_true rfl, if_pos rfl, hitems]
        rfl
      have hhandle := handle_slice now L.first hslice hstored
      rwa [answer_config] at hhandle
  | succ i =>
      have hslice : Slice (P.config (i + 1) r) .inputsEmbeds L.dims p
          (L.hidden i (Nat.lt_of_succ_lt hi) ys) a := by
        refine ⟨hid, hopen, hstarts, by rwa [Causal.length_apply], ?_⟩
        rw [inputs, P.isFirst (i + 1) r, decide_eq_false (Nat.succ_ne_zero i),
          if_neg Bool.false_ne_true, hitems]
        rfl
      have hhandle := handle_slice now (L.later i hi) hslice
        fun ha sess hsess hle => by
          obtain ⟨zs, hholds, hagree⟩ := hstored ha sess hsess hle
          exact ⟨_, hholds, by rw [← Causal.apply_take, ← Causal.apply_take, hagree]⟩
      rwa [answer_config] at hhandle

/-- The payload that a stage hands on carries the same slice for the next stage. -/
theorem Carries.handOn (hp : L.Carries sessionId i hi p ys a) (hnext : i + 1 < P.size) :
    L.Carries sessionId (i + 1) hnext
      (Stage.handOn p (.row L.dims ((L.hidden i hi ys).drop a))) ys a :=
  ⟨hp.session, rfl, hp.starts, hp.nonempty, rfl⟩

end Lawful

/-! ### What only grows -/

structure Later (w w' : World τ η ℓ κ ρ) : Prop where
  trace : w.trace <+: w'.trace
  round : w'.round = w.round

theorem Later.refl (w : World τ η ℓ κ ρ) : Later w w := ⟨List.prefix_rfl, rfl⟩

theorem Later.trans {w₁ w₂ w₃ : World τ η ℓ κ ρ} (h : Later w₁ w₂) (h' : Later w₂ w₃) :
    Later w₁ w₃ :=
  ⟨h.trace.trans h'.trace, h'.round.trans h.round⟩

section World

variable [DecidableEq ρ] {P : Deployment τ η ℓ κ ρ} {sessionId : String} {sched : Schedule τ η ρ}
  {w : World τ η ℓ κ ρ}

theorem place_eq {α : Type} (f : Nat → ρ → α) (i : Nat) (r : ρ) (v : α) (j : Nat) (q : ρ) :
    place f i r v j q = if j = i ∧ q = r then v else f j q :=
  rfl

theorem execute_later (sent : Sent τ η) (r : ρ) (now : Instant) (w : World τ η ℓ κ ρ) :
    Later w (execute P sent r now w).2 :=
  ⟨List.prefix_append .., rfl⟩

theorem act_later (w : World τ η ℓ κ ρ) (a : Act τ η ρ) : Later w (act P sessionId w a) := by
  cases a with
  | drop i r => exact ⟨List.prefix_rfl, rfl⟩
  | lose i r => exact ⟨List.prefix_rfl, rfl⟩
  | other i r now req =>
      rw [act]
      split
      · exact .refl w
      · exact ⟨List.prefix_rfl, rfl⟩
  | again n r now =>
      rw [act]
      split
      · exact execute_later ..
      · exact .refl w

variable (P sessionId) in
theorem acts_later (acts : List (Act τ η ρ)) (w : World τ η ℓ κ ρ) :
    Later w (acts.foldl (act P sessionId) w) := by
  induction acts generalizing w with
  | nil => exact .refl w
  | cons a rest ih => exact (act_later w a).trans (ih _)

/-- The world in which a request is about to be served. -/
def ready (P : Deployment τ η ℓ κ ρ) (sessionId : String) (sched : Schedule τ η ρ) (i : Nat)
    (p : Payload τ η) (w : World τ η ℓ κ ρ) : World τ η ℓ κ ρ :=
  (sched w.calls).acts.foldl (act P sessionId)
    { w with calls := w.calls + 1, log := w.log ++ [⟨i, p, w.round⟩] }

theorem ready_later (i : Nat) (p : Payload τ η) (w : World τ η ℓ κ ρ) :
    Later w (ready P sessionId sched i p w) := by
  have h := acts_later P sessionId (sched w.calls).acts
    { w with calls := w.calls + 1, log := w.log ++ [⟨i, p, w.round⟩] }
  exact ⟨h.trace, h.round⟩

variable (P sessionId sched) in
/-- A call does not execute its request, or it does, and its answer gets back or is lost. -/
theorem call_cases (i : Nat) (p : Payload τ η) (w : World τ η ℓ κ ρ) :
    (∃ reply, (∀ response, reply ≠ .answered response) ∧
        call P sessionId sched i p w = (reply, ready P sessionId sched i p w)) ∨
      ∃ r now reply, call P sessionId sched i p w =
          (reply, (execute P ⟨i, p, w.round⟩ r now (ready P sessionId sched i p w)).2) ∧
        ∀ response, reply = .answered response →
          (execute P ⟨i, p, w.round⟩ r now (ready P sessionId sched i p w)).1 = .ok response := by
  unfold call
  dsimp only
  rw [← ready]
  cases (sched w.calls).fate with
  | lostBefore => exact .inl ⟨.lost, nofun, rfl⟩
  | failed => exact .inl ⟨.failed, nofun, rfl⟩
  | lostAfter => exact .inr ⟨_, _, .lost, rfl, nofun⟩
  | answered =>
      right
      refine ⟨(sched w.calls).replica, (sched w.calls).now, ?_⟩
      generalize execute P ⟨i, p, w.round⟩ (sched w.calls).replica (sched w.calls).now
        (ready P sessionId sched i p w) = outcome
      obtain ⟨result, w'⟩ := outcome
      cases result with
      | ok response =>
          refine ⟨.answered response, rfl, fun response' h => ?_⟩
          cases h
          rfl
      | error e => exact ⟨.failed, rfl, nofun⟩

theorem call_later (i : Nat) (p : Payload τ η) (w : World τ η ℓ κ ρ) :
    Later w (call P sessionId sched i p w).2 := by
  rcases call_cases P sessionId sched i p w with
    ⟨reply, _, h⟩ | ⟨r, now, reply, h, _⟩
  · rw [h]
    exact ready_later i p w
  · rw [h]
    exact (ready_later i p w).trans (execute_later ..)

theorem through_later (roles : List Nat) (p : Payload τ η) (w : World τ η ℓ κ ρ) :
    Later w (through P sessionId sched roles p w).2 := by
  induction roles generalizing p w with
  | nil => exact .refl w
  | cons i rest ih =>
      have hcall : Later w (call P sessionId sched i p w).2 := call_later i p w
      rw [through]
      split
      · rename_i next w' h
        rw [h] at hcall
        exact hcall.trans (ih next w')
      · rename_i reply w' _ h
        rw [h] at hcall
        exact hcall

/-! ### Histories -/

/-- The sequence that the requests of each round carry, and where they may start besides 0. -/
abbrev History (τ : Type) := List (List τ × Nat)

variable (L : Lawful P) (sessionId)

/-- The request carries the sequence of its round. -/
def Expected (hist : History τ) (sent : Sent τ η) : Prop :=
  ∃ (hi : sent.role < P.size) (ys : List τ) (start a : Nat),
    hist[sent.round]? = some (ys, start) ∧ (a = 0 ∨ a = start) ∧
      L.Carries sessionId sent.role hi sent.payload ys a

/-- The execution answers a miss, or what a pass over the whole sequence of its round gives. -/
def Justified (hist : History τ) (x : Execution τ η ℓ κ ρ) : Prop :=
  ∃ (hi : x.sent.role < P.size) (ys : List τ) (start a : Nat),
    hist[x.sent.round]? = some (ys, start) ∧ (a = 0 ∨ a = start) ∧
      L.Carries sessionId x.sent.role hi x.sent.payload ys a ∧
      ((∃ cached, x.result = .ok (.cacheMiss cached)) ∨
        x.result = .ok (L.answerAt x.sent.role hi x.sent.payload ys a))

/-- Every cache of the session holds the sequence of the round in which it was last written, every
request of the session carries the sequence of its round, and is answered from it. -/
structure Kept (hist : History τ) (w : World τ η ℓ κ ρ) : Prop where
  tables : ∀ i (hi : i < P.size) r sess, (w.tables i r).lookup sessionId = some sess →
    ∃ ys start, hist[w.written i r]? = some (ys, start) ∧ L.HoldsAt i hi sess ys
  log : ∀ sent ∈ w.log, Expected sessionId L hist sent
  trace : ∀ x ∈ w.trace, Justified sessionId L hist x

/-- Which round's cache a request of a round may find, when the cache is as long as the request
needs it. -/
def Execution.Meets (meets : Nat → Nat → Prop) (x : Execution τ η ℓ κ ρ) : Prop :=
  ∀ sess start, x.found.lookup sessionId = some sess → x.sent.payload.startPos = some start →
    start ≠ 0 → start ≤ sess.length → meets x.written x.sent.round

instance (sessionId : String) (meets : Nat → Nat → Prop) [DecidableRel meets]
    (x : Execution τ η ℓ κ ρ) : Decidable (x.Meets sessionId meets) :=
  decidable_of_iff (∀ sess ∈ x.found.lookup sessionId, ∀ start ∈ x.sent.payload.startPos,
      start ≠ 0 → start ≤ sess.length → meets x.written x.sent.round)
    ⟨fun h sess start hsess => h sess hsess start, fun h sess hsess start => h sess start hsess⟩

/-- Rounds that may meet agree up to where the later one starts. -/
def Compatible (meets : Nat → Nat → Prop) (hist : History τ) : Prop :=
  ∀ q r ys start zs a, hist[q]? = some (zs, a) → hist[r]? = some (ys, start) → meets q r →
    start ≤ zs.length → zs.take start = ys.take start

variable {L sessionId} {meets : Nat → Nat → Prop} {hist : History τ} {i : Nat} {hi : i < P.size}
  {p : Payload τ η} {ys : List τ} {start a round : Nat} {r : ρ} {now : Instant}

omit [DecidableEq ρ] in
theorem Kept.mono (hk : Kept sessionId L hist w) (new : History τ) :
    Kept sessionId L (hist ++ new) w where
  tables := fun i hi r sess hsess => by
    obtain ⟨ys, start, hhist, hholds⟩ := hk.tables i hi r sess hsess
    exact ⟨ys, start, by rw [List.getElem?_append_left (List.getElem?_eq_some_iff.mp hhist).1, hhist],
      hholds⟩
  log := fun sent hsent => by
    obtain ⟨hi, ys, start, a, hhist, hrest⟩ := hk.log sent hsent
    exact ⟨hi, ys, start, a,
      by rw [List.getElem?_append_left (List.getElem?_eq_some_iff.mp hhist).1, hhist], hrest⟩
  trace := fun x hx => by
    obtain ⟨hi, ys, start, a, hhist, hrest⟩ := hk.trace x hx
    exact ⟨hi, ys, start, a,
      by rw [List.getElem?_append_left (List.getElem?_eq_some_iff.mp hhist).1, hhist], hrest⟩

omit [DecidableEq ρ] in
/-- Before anything of the session has been sent. -/
theorem kept_init {tables : Nat → ρ → Sessions κ}
    (hnew : ∀ i r, (tables i r).lookup sessionId = none) :
    Kept sessionId L [([], 0)] (.init tables) := by
  constructor
  · intro i _ r sess hsess
    cases (hnew i r).symm.trans hsess
  · intro sent hsent
    cases hsent
  · intro x hx
    cases hx

omit [DecidableEq ρ] in
/-- The answer to a slice counts as written. -/
theorem wrote_answerAt : wrote (.ok (L.answerAt i hi p ys a)) = true := by
  unfold Lawful.answerAt
  dsimp only
  split
  · split
    · rfl
    · rfl
  · rfl

/-- One execution of an expected request keeps the invariant; its answer is a miss, or that of the
whole sequence. -/
theorem execute_kept (hid : sessionId ≠ "") (hcompat : Compatible meets hist)
    (hk : Kept sessionId L hist w) (hhist : hist[round]? = some (ys, start))
    (ha : a = 0 ∨ a = start) (hp : L.Carries sessionId i hi p ys a)
    (hmeets : ∀ x ∈ (execute P ⟨i, p, round⟩ r now w).2.trace, x.Meets sessionId meets) :
    Kept sessionId L hist (execute P ⟨i, p, round⟩ r now w).2 ∧
      ((∃ cached, (execute P ⟨i, p, round⟩ r now w).1 = .ok (.cacheMiss cached)) ∨
        (execute P ⟨i, p, round⟩ r now w).1 = .ok (L.answerAt i hi p ys a)) := by
  have hx := hmeets _ (List.mem_append_right _ (List.mem_singleton_self _))
  have hstored : a ≠ 0 → ∀ sess, (w.tables i r).lookup sessionId = some sess →
      (a : Int) ≤ sess.length → ∃ zs, L.HoldsAt i hi sess zs ∧ zs.take a = ys.take a := by
    intro hne sess hsess hle
    obtain ⟨zs, b, hwritten, hholds⟩ := hk.tables i hi r sess hsess
    have hmeet := hx sess a hsess hp.starts (Int.natCast_ne_zero.mpr hne) hle
    obtain rfl := ha.resolve_left hne
    refine ⟨zs, hholds, hcompat _ _ _ _ _ _ hwritten hhist hmeet ?_⟩
    rw [hholds.length] at hle
    exact Int.ofNat_le.mp hle
  unfold execute
  dsimp only
  rcases hp.handle now r hid hstored with ⟨cached, h⟩ | ⟨s', h, hs'⟩
  · rw [h]
    refine ⟨⟨fun j hj q sess hsess => ?_, fun sent hsent => ?_, fun x hx => ?_⟩,
      .inl ⟨cached, rfl⟩⟩
    · dsimp only [wrote] at hsess ⊢
      rw [place_eq] at hsess
      apply hk.tables j hj q sess
      split at hsess
      · rename_i hjq
        obtain ⟨rfl, rfl⟩ := hjq
        exact hsess
      · exact hsess
    · exact hk.log sent ((List.mem_append.mp hsent).resolve_right List.not_mem_nil)
    · rcases List.mem_append.mp hx with hx | hx
      · exact hk.trace x hx
      · obtain rfl := List.mem_singleton.mp hx
        exact ⟨hi, ys, start, a, hhist, ha, hp, .inl ⟨cached, rfl⟩⟩
  · rw [h]
    refine ⟨⟨fun j hj q sess hsess => ?_, fun sent hsent => ?_, fun x hx => ?_⟩, .inr rfl⟩
    · dsimp only at hsess ⊢
      rw [wrote_answerAt, if_pos rfl, place_eq]
      rw [place_eq] at hsess
      split at hsess
      · rename_i hjq
        obtain ⟨rfl, rfl⟩ := hjq
        rw [if_pos ⟨rfl, rfl⟩]
        exact ⟨ys, start, hhist, hs' sess hsess⟩
      · rename_i hjq
        rw [if_neg hjq]
        exact hk.tables j hj q sess hsess
    · dsimp only at hsent
      rcases List.mem_append.mp hsent with hsent | hsent
      · exact hk.log sent hsent
      · unfold Lawful.answerAt at hsent
        dsimp only at hsent
        split at hsent
        · split at hsent
          · cases hsent
          · cases hsent
        · rename_i hlast
          obtain rfl := List.mem_singleton.mp hsent
          have hnext : i + 1 < P.size := Nat.lt_of_le_of_ne hi hlast
          exact ⟨hnext, ys, start, a, hhist, ha, hp.handOn hnext⟩
    · rcases List.mem_append.mp hx with hx | hx
      · exact hk.trace x hx
      · obtain rfl := List.mem_singleton.mp hx
        exact ⟨hi, ys, start, a, hhist, ha, hp, .inr rfl⟩

/-- An act that replaces a table and adds no session of ours keeps the invariant. -/
theorem setTable_kept (hk : Kept sessionId L hist w) (i : Nat) (r : ρ) {s : Sessions κ}
    (hs : ∀ sess, s.lookup sessionId = some sess → (w.tables i r).lookup sessionId = some sess) :
    Kept sessionId L hist (w.setTable i r s) where
  tables := fun j hj q sess hsess => by
    apply hk.tables j hj q sess
    change (place w.tables i r s j q).lookup sessionId = some sess at hsess
    rw [place_eq] at hsess
    split at hsess
    · rename_i hjq
      obtain ⟨rfl, rfl⟩ := hjq
      exact hs sess hsess
    · exact hsess
  log := hk.log
  trace := hk.trace

theorem act_kept (hid : sessionId ≠ "") (hcompat : Compatible meets hist)
    (hk : Kept sessionId L hist w) (act' : Act τ η ρ)
    (hmeets : ∀ x ∈ (act P sessionId w act').trace, x.Meets sessionId meets) :
    Kept sessionId L hist (act P sessionId w act') := by
  cases act' with
  | drop i r => exact setTable_kept hk i r fun sess h => nomatch h
  | lose i r =>
      apply setTable_kept hk i r
      intro sess h
      rw [AList.lookup_erase] at h
      cases h
  | other i r now req =>
      rw [act]
      split
      · exact hk
      · rename_i hother
        exact setTable_kept hk i r fun sess h => handle_other _ (Ne.symm hother) h
  | again n r now =>
      rw [act] at hmeets ⊢
      cases hsent : w.log[n]? with
      | none => exact hk
      | some sent =>
          rw [hsent] at hmeets
          obtain ⟨hi, ys, start, a, hhist, ha, hp⟩ := hk.log sent (List.mem_of_getElem? hsent)
          exact (execute_kept hid hcompat hk hhist ha hp hmeets).1

theorem acts_kept (hid : sessionId ≠ "") (hcompat : Compatible meets hist)
    (hk : Kept sessionId L hist w) (acts : List (Act τ η ρ))
    (hmeets : ∀ x ∈ (acts.foldl (act P sessionId) w).trace, x.Meets sessionId meets) :
    Kept sessionId L hist (acts.foldl (act P sessionId) w) := by
  induction acts generalizing w with
  | nil => exact hk
  | cons act' rest ih =>
      refine ih (act_kept hid hcompat hk act' fun x hx => hmeets x ?_) hmeets
      exact (acts_later P sessionId rest (act P sessionId w act')).trace.subset hx

/-- The answer that a request for a role may get. -/
def Served (L : Lawful P) (i : Nat) (hi : i < P.size) (p : Payload τ η) (ys : List τ) (a : Nat)
    (reply : Reply τ η ℓ) : Prop :=
  reply = .lost ∨ reply = .failed ∨ (∃ cached, reply = .answered (.cacheMiss cached)) ∨
    reply = .answered (L.answerAt i hi p ys a)

variable (sched) in
theorem call_kept (hid : sessionId ≠ "") (hcompat : Compatible meets hist)
    (hk : Kept sessionId L hist w) (hhist : hist[w.round]? = some (ys, start))
    (ha : a = 0 ∨ a = start) (hp : L.Carries sessionId i hi p ys a)
    (hmeets : ∀ x ∈ (call P sessionId sched i p w).2.trace, x.Meets sessionId meets) :
    Kept sessionId L hist (call P sessionId sched i p w).2 ∧
      Served L i hi p ys a (call P sessionId sched i p w).1 := by
  have hsent : Kept sessionId L hist
      { w with calls := w.calls + 1, log := w.log ++ [⟨i, p, w.round⟩] } := by
    refine ⟨hk.tables, fun sent hsent => ?_, hk.trace⟩
    rcases List.mem_append.mp hsent with hsent | hsent
    · exact hk.log sent hsent
    · obtain rfl := List.mem_singleton.mp hsent
      exact ⟨hi, ys, start, a, hhist, ha, hp⟩
  have hready : (∀ x ∈ (ready P sessionId sched i p w).trace, x.Meets sessionId meets) →
      Kept sessionId L hist (ready P sessionId sched i p w) :=
    acts_kept hid hcompat hsent _
  rcases call_cases P sessionId sched i p w with ⟨reply, hreply, h⟩ | ⟨r, now, reply, h, hreply⟩
  · rw [h] at hmeets ⊢
    refine ⟨hready hmeets, ?_⟩
    cases reply with
    | lost => exact .inl rfl
    | failed => exact .inr (.inl rfl)
    | answered response => exact absurd rfl (hreply response)
  · rw [h] at hmeets ⊢
    obtain ⟨hkept, hresult⟩ := execute_kept hid hcompat (hready fun x hx =>
      hmeets x ((execute_later _ r now _).trace.subset hx)) hhist ha hp hmeets
    refine ⟨hkept, ?_⟩
    cases reply with
    | lost => exact .inl rfl
    | failed => exact .inr (.inl rfl)
    | answered response =>
        have hresponse := hreply response rfl
        rcases hresult with ⟨cached, hmiss⟩ | hanswer
        · cases hresponse.symm.trans hmiss
          exact .inr (.inr (.inl ⟨cached, rfl⟩))
        · cases hresponse.symm.trans hanswer
          exact .inr (.inr (.inr rfl))

/-- What the whole pipeline answers to a slice that starts at `a`. -/
def finalAnswer (L : Lawful P) (argmax : Bool) (ys : List τ) (a : Nat) : Response τ η ℓ :=
  let h := (L.hidden Lawful.last Lawful.last_lt ys).drop a
  let M := P.model (Lawful.last (P := P))
  if argmax then .argmax (h.map fun x => M.argmax (M.lmHead x))
  else .logits (h.getLast?.toList.map M.lmHead)

omit [DecidableEq ρ] in
theorem answerAt_last (hlast : i + 1 = P.size) :
    L.answerAt i hi p ys a = finalAnswer L p.argmax ys a := by
  obtain rfl : i = Lawful.last (P := P) := by
    rw [Lawful.last, ← hlast]
    rfl
  unfold Lawful.answerAt finalAnswer
  dsimp only
  rw [if_pos hlast]

/-- The replies that the pipeline may give to a sequence sent from `a` on. -/
def ServedThrough (L : Lawful P) (argmax : Bool) (ys : List τ) (a : Nat)
    (reply : Reply τ η ℓ) : Prop :=
  reply = .lost ∨ reply = .failed ∨ (∃ cached, reply = .answered (.cacheMiss cached)) ∨
    reply = .answered (finalAnswer L argmax ys a)

omit [DecidableEq ρ] in
theorem finalAnswer_ne_hidden (argmax : Bool) (next : Payload τ η) :
    finalAnswer L argmax ys a ≠ .hidden next := by
  unfold finalAnswer
  dsimp only
  split
  · exact nofun
  · exact nofun

omit [DecidableEq ρ] in
theorem answerAt_hidden {next : Payload τ η} (h : L.answerAt i hi p ys a = .hidden next) :
    i + 1 < P.size ∧ next = handOn p (.row L.dims ((L.hidden i hi ys).drop a)) := by
  by_cases hlast : i + 1 = P.size
  · rw [answerAt_last hlast] at h
    exact absurd h (finalAnswer_ne_hidden _ _)
  · unfold Lawful.answerAt at h
    dsimp only at h
    rw [if_neg hlast] at h
    cases h
    exact ⟨Nat.lt_of_le_of_ne hi hlast, rfl⟩

theorem through_stops {rest : List Nat}
    (h : ∀ next, (call P sessionId sched i p w).1 ≠ .answered (.hidden next)) :
    through P sessionId sched (i :: rest) p w = call P sessionId sched i p w := by
  rw [through]
  split
  · rename_i next w' hcall
    exact absurd (congrArg Prod.fst hcall) (h next)
  · rename_i hcall
    exact hcall.symm

/-- One hop of a request through the roles; `hrest` speaks about the hops after it. -/
theorem through_hop (hid : sessionId ≠ "") (hcompat : Compatible meets hist) {rest : List Nat}
    (hk : Kept sessionId L hist w) (hhist : hist[w.round]? = some (ys, start))
    (ha : a = 0 ∨ a = start) (hp : L.Carries sessionId i hi p ys a)
    (hmeets : ∀ x ∈ (through P sessionId sched (i :: rest) p w).2.trace, x.Meets sessionId meets)
    (hrest : ∀ (hnext : i + 1 < P.size) next w', next.argmax = p.argmax →
      L.Carries sessionId (i + 1) hnext next ys a → Kept sessionId L hist w' →
      w'.round = w.round →
      (∀ x ∈ (through P sessionId sched rest next w').2.trace, x.Meets sessionId meets) →
      Kept sessionId L hist (through P sessionId sched rest next w').2 ∧
        ServedThrough L p.argmax ys a (through P sessionId sched rest next w').1) :
    Kept sessionId L hist (through P sessionId sched (i :: rest) p w).2 ∧
      ServedThrough L p.argmax ys a (through P sessionId sched (i :: rest) p w).1 := by
  have hcall := call_kept sched hid hcompat hk hhist ha hp
  have hlater : Later w (call P sessionId sched i p w).2 := call_later i p w
  by_cases hhidden : ∃ next, (call P sessionId sched i p w).1 = .answered (.hidden next)
  · obtain ⟨next, hnext⟩ := hhidden
    rw [through] at hmeets ⊢
    generalize call P sessionId sched i p w = outcome at hcall hlater hmeets hnext ⊢
    obtain ⟨reply, w'⟩ := outcome
    obtain rfl : reply = .answered (.hidden next) := hnext
    obtain ⟨hkept, hserved⟩ := hcall fun x hx =>
      hmeets x ((through_later rest next w').trace.subset hx)
    rcases hserved with h | h | ⟨cached, h⟩ | h
    · cases h
    · cases h
    · cases h
    · obtain ⟨hnext, rfl⟩ := answerAt_hidden (Reply.answered.inj h).symm
      exact hrest hnext _ w' rfl (hp.handOn hnext) hkept hlater.round hmeets
  · rw [through_stops (not_exists.mp hhidden)] at hmeets ⊢
    obtain ⟨hkept, hserved⟩ := hcall hmeets
    refine ⟨hkept, ?_⟩
    rcases hserved with h | h | h | h
    · exact .inl h
    · exact .inr (.inl h)
    · exact .inr (.inr (.inl h))
    · by_cases hlast : i + 1 = P.size
      · exact .inr (.inr (.inr (h.trans (congrArg _ (answerAt_last hlast)))))
      · refine absurd ⟨handOn p (.row L.dims ((L.hidden i hi ys).drop a)), h.trans ?_⟩ hhidden
        unfold Lawful.answerAt
        dsimp only
        rw [if_neg hlast]

variable (sched) in
/-- From role `i` on, with `k` more roles to follow it. -/
theorem through_kept (hid : sessionId ≠ "") (hcompat : Compatible meets hist) {k : Nat}
    (hk : Kept sessionId L hist w) (hhist : hist[w.round]? = some (ys, start))
    (ha : a = 0 ∨ a = start) (hsize : i + (k + 1) = P.size)
    (hp : L.Carries sessionId i hi p ys a)
    (hmeets : ∀ x ∈ (through P sessionId sched (List.range' i (k + 1)) p w).2.trace,
      x.Meets sessionId meets) :
    Kept sessionId L hist (through P sessionId sched (List.range' i (k + 1)) p w).2 ∧
      ServedThrough L p.argmax ys a
        (through P sessionId sched (List.range' i (k + 1)) p w).1 := by
  induction k generalizing i p w with
  | zero =>
      apply through_hop hid hcompat hk hhist ha hp hmeets
      intro hnext
      omega
  | succ k ih =>
      refine through_hop hid hcompat hk hhist ha hp hmeets
        fun hnext next w' hargmax hp' hk' hround hmeets' => ?_
      rw [← hargmax]
      exact ih hk' (by rw [hround]; exact hhist) (by omega) hp' hmeets'

/-! ### Steps -/

variable {α : Type} {key : Response τ η ℓ → Option α}

theorem attempt_later (ps : List (Payload τ η)) (w : World τ η ℓ κ ρ) :
    Later w (attempt P sessionId sched key ps w).2 := by
  induction ps generalizing w with
  | nil => exact .refl w
  | cons p rest ih =>
      have hthrough : Later w (through P sessionId sched (List.range P.size) p w).2 :=
        through_later _ p w
      rw [attempt]
      generalize through P sessionId sched (List.range P.size) p w = outcome at hthrough ⊢
      obtain ⟨reply, w'⟩ := outcome
      cases reply with
      | lost => exact hthrough.trans (ih w')
      | failed => exact hthrough
      | answered response => exact hthrough

omit [DecidableEq ρ] in
theorem read_value {response : Response τ η ℓ} {v : α} (h : read key response = .value v) :
    key response = some v := by
  unfold read at h
  split at h
  · cases h
  · cases hkey : key response with
    | none =>
        rw [hkey] at h
        cases h
    | some u =>
        rw [hkey] at h
        cases h
        rfl

/-- Attempts that all carry the same slice: a value is read from the answer of the full model. -/
theorem attempt_kept (hid : sessionId ≠ "") (hcompat : Compatible meets hist) {argmax : Bool}
    (hk : Kept sessionId L hist w) (hhist : hist[w.round]? = some (ys, start))
    (ha : a = 0 ∨ a = start) {ps : List (Payload τ η)}
    (hps : ∀ p ∈ ps, L.Carries sessionId 0 P.pos p ys a ∧ p.argmax = argmax)
    (hmeets : ∀ x ∈ (attempt P sessionId sched key ps w).2.trace, x.Meets sessionId meets) :
    Kept sessionId L hist (attempt P sessionId sched key ps w).2 ∧
      ∀ v, (attempt P sessionId sched key ps w).1 = .value v →
        key (finalAnswer L argmax ys a) = some v := by
  induction ps generalizing w with
  | nil => exact ⟨hk, nofun⟩
  | cons p rest ih =>
      obtain ⟨hp, hargmax⟩ := hps p List.mem_cons_self
      have hsize : 0 + (P.size - 1 + 1) = P.size := by
        have hpos := P.pos
        omega
      have hthrough := through_kept sched hid hcompat hk hhist ha hsize hp
      have hlater : Later w (through P sessionId sched (List.range P.size) p w).2 :=
        through_later _ p w
      rw [Nat.zero_add] at hsize
      rw [hsize, ← List.range_eq_range', hargmax] at hthrough
      rw [attempt] at hmeets ⊢
      generalize through P sessionId sched (List.range P.size) p w = outcome
        at hthrough hlater hmeets ⊢
      obtain ⟨reply, w'⟩ := outcome
      cases reply with
      | lost =>
          obtain ⟨hk', _⟩ := hthrough fun x hx => hmeets x ((attempt_later rest w').trace.subset hx)
          exact ih hk' (by rw [hlater.round]; exact hhist)
            (fun p hp => hps p (List.mem_cons_of_mem _ hp)) hmeets
      | failed => exact ⟨(hthrough hmeets).1, nofun⟩
      | answered response =>
          obtain ⟨hk', hserved⟩ := hthrough hmeets
          refine ⟨hk', fun v hv => ?_⟩
          rcases hserved with h | h | ⟨cached, h⟩ | h
          · cases h
          · cases h
          · cases h
            cases hv
          · cases h
            exact read_value hv

theorem step_later (p : Payload τ η) (w : World τ η ℓ κ ρ) :
    Later w (step P sessionId sched key p w).2 :=
  attempt_later _ w

/-- A step on the sequence of the current round keeps the invariant, and its value is read from
the answer of the full model. -/
theorem step_kept (hid : sessionId ≠ "") (hcompat : Compatible meets hist)
    (hk : Kept sessionId L hist w) (hhist : hist[w.round]? = some (ys, start))
    (ha : a = 0 ∨ a = start) (hp : L.Carries sessionId 0 P.pos p ys a)
    (hmeets : ∀ x ∈ (step P sessionId sched key p w).2.trace, x.Meets sessionId meets) :
    Kept sessionId L hist (step P sessionId sched key p w).2 ∧
      ∀ v, (step P sessionId sched key p w).1 = .value v →
        key (finalAnswer L p.argmax ys a) = some v := by
  refine attempt_kept hid hcompat hk hhist ha (fun q hq => ?_) hmeets
  rcases List.mem_cons.mp hq with rfl | hq
  · exact ⟨hp, rfl⟩
  · obtain rfl := List.mem_singleton.mp hq
    exact ⟨⟨hp.session, hp.isOpen, hp.starts, hp.nonempty, hp.items⟩, rfl⟩

omit [DecidableEq ρ] in
/-- What holds of the first outcome, and of a run after a miss, holds of the recovered one. -/
theorem recover_rule {again : World τ η ℓ κ ρ → Outcome α × World τ η ℓ κ ρ}
    {Q : Outcome α × World τ η ℓ κ ρ → Prop} (hagain : ∀ w, Q (.miss, w) → Q (again w))
    (hfailed : ∀ w, Q (.miss, w) → Q (.failed, w)) (n : Nat)
    (first : Outcome α × World τ η ℓ κ ρ) (h : Q first) :
    Q ((recover again n first).1, (recover again n first).2.2) := by
  induction n generalizing first with
  | zero =>
      obtain ⟨outcome, w⟩ := first
      cases outcome with
      | miss => exact hfailed w h
      | value v => exact h
      | failed => exact h
  | succ n ih =>
      obtain ⟨outcome, w⟩ := first
      cases outcome with
      | miss => exact ih (again w) (hagain w h)
      | value v => exact h
      | failed => exact h

variable (L sessionId meets hist w) in
/-- An outcome reached from `w`: the invariant is kept, and a value is good. -/
def Reached (good : α → Prop) (x : Outcome α × World τ η ℓ κ ρ) : Prop :=
  Later w x.2 ∧ ((∀ e ∈ x.2.trace, e.Meets sessionId meets) →
    Kept sessionId L hist x.2 ∧ ∀ v, x.1 = .value v → good v)

omit [DecidableEq ρ] in
theorem recover_reached {good : α → Prop}
    {again : World τ η ℓ κ ρ → Outcome α × World τ η ℓ κ ρ} {first : Outcome α × World τ η ℓ κ ρ}
    (hfirst : Reached sessionId w L meets hist good first)
    (hagain : ∀ w', Later w w' →
      ((∀ e ∈ w'.trace, e.Meets sessionId meets) → Kept sessionId L hist w') →
      Reached sessionId w L meets hist good (again w')) (n : Nat) :
    Reached sessionId w L meets hist good
      ((recover again n first).1, (recover again n first).2.2) := by
  refine recover_rule (fun w' h => ?_) (fun w' h => ?_) n first hfirst
  · exact hagain w' h.1 fun hmeets => (h.2 hmeets).1
  · exact ⟨h.1, fun hmeets => ⟨(h.2 hmeets).1, nofun⟩⟩

variable (sched key) in
/-- A step on the sequence of the current round, from a world that keeps the invariant. -/
theorem step_reached (hid : sessionId ≠ "") (hcompat : Compatible meets hist)
    (hhist : hist[w.round]? = some (ys, start)) (ha : a = 0 ∨ a = start)
    (hp : L.Carries sessionId 0 P.pos p ys a) {w' : World τ η ℓ κ ρ} (hlater : Later w w')
    (hk : (∀ e ∈ w'.trace, e.Meets sessionId meets) → Kept sessionId L hist w') :
    Reached sessionId w L meets hist (fun v => key (finalAnswer L p.argmax ys a) = some v)
      (step P sessionId sched key p w') := by
  have hstep : Later w' (step P sessionId sched key p w').2 := step_later p w'
  refine ⟨hlater.trans hstep, fun hmeets => ?_⟩
  exact step_kept hid hcompat (hk fun e he => hmeets e (hstep.trace.subset he))
    (by rw [hlater.round]; exact hhist) ha hp hmeets

end World
end Distllm.Pipeline
