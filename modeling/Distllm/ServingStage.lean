import Distllm.PipelineExact
import Distllm.ServingState
import Distllm.StageSelection
import Distllm.StageLayers

/-! What a stage makes of the dictionaries of a generation. A generation has one sequence: its
prompt with all tokens that the full model decodes from it. Every request of it carries a part of a
prefix of this sequence, at every stage; as long as that is so, a stage keeps the cache of a prefix
for the session, and answers a request with a miss or with what the full model has there. -/

namespace Distllm.Serving

open Stage (Config Model Pass Raw Sessions Session Response Result Tensor Entry truthOf handleRaw)
open Payload (Key Item Dict Value Transport ridKey sessionKey stopChainKey)
open Pipeline (Lawful)
open Decoding (decode)

variable {τ η ℓ κ σ ω : Type}

/-! ### Dictionaries -/

/-- What is written is read back: a text is itself and true unless it is empty, `True` is true, a
number is a number, and a tensor is a tensor. A tensor of one position has one entry. -/
structure Codec.Sound (C : Codec τ η ℓ ω) (T : Transport ω) : Prop where
  text : ∀ s, (C.look (.str s)).text = s
  textTruth : ∀ s, (C.look (.str s)).truth = .ok (decide (s ≠ ""))
  flag : (C.look (.other C.flag)).truth = .ok true
  flagStops : T.truth C.flag = .ok true
  number : ∀ n, (C.look (.other (C.number n))).toInt = .ok n
  ids : ∀ t, t.Sized → C.ids (.other (C.ofIds t)) = .tensor t
  hidden : ∀ t, t.Sized → C.hidden (.other (C.ofHidden t)) = .tensor t
  rows : ∀ rows, C.rows (.other (C.ofRows rows)) = some rows
  idsSized : ∀ item t, C.ids item = .tensor t → t.Sized
  hiddenSized : ∀ item t, C.hidden item = .tensor t → t.Sized

section Dictionaries

variable {C : Codec τ η ℓ ω} {T : Transport ω} {d : Dict ω} {p : Stage.Payload τ η}

/-- A request that does not close its session, and what a stage reads from it. -/
structure Reads (C : Codec τ η ℓ ω) (d : Dict ω) (p : Stage.Payload τ η) : Prop where
  id : (C.raw d).id = .ok p.sessionId
  isOpen : truthOf (C.raw d).close = .ok false
  close : p.close = false
  start : ∃ n, (C.raw d).start = .ok n ∧ p.startPos = some n
  rewind : truthOf (C.raw d).rewind = .ok p.rewind
  argmax : (C.raw d).isArgmax = .ok p.argmax
  ids : (C.raw d).inputIds = p.inputIds
  hidden : (C.raw d).hiddenStates = p.hiddenStates

theorem Reads.unique {q : Stage.Payload τ η} (hp : Reads C d p) (hq : Reads C d q) : p = q := by
  obtain ⟨n, hn, hpn⟩ := hp.start
  obtain ⟨m, hm, hqm⟩ := hq.start
  obtain rfl := Except.ok.inj (hn.symm.trans hm)
  have hid := Except.ok.inj (hp.id.symm.trans hq.id)
  have hclose := hp.close.trans hq.close.symm
  have hstart := hpn.trans hqm.symm
  have hrewind := Except.ok.inj (hp.rewind.symm.trans hq.rewind)
  have hargmax := Except.ok.inj (hp.argmax.symm.trans hq.argmax)
  have hids := hp.ids.symm.trans hq.ids
  have hhidden := hp.hidden.symm.trans hq.hidden
  cases p
  cases q
  dsimp only at hid hclose hstart hrewind hargmax hids hhidden
  subst hid hclose hstart hrewind hargmax hids hhidden
  rfl

theorem Reads.read (h : Reads C d p) {n : Int} (hn : (C.raw d).start = .ok n) :
    (C.raw d).read p.sessionId n = p := by
  obtain ⟨m, hm, hpm⟩ := h.start
  obtain rfl := Except.ok.inj (hm.symm.trans hn)
  rw [Raw.read, h.rewind, h.argmax, h.ids, h.hidden, ← h.close, ← hpm]
  rfl

/-- Of a request that can be read, a stage makes what it makes of the payload. -/
theorem Reads.handleRaw (h : Reads C d p) (hnamed : p.sessionId ≠ "") (cfg : Config)
    (M : Model τ η ℓ κ) (now : Stage.Instant) (s : Sessions κ) :
    Stage.handleRaw cfg M now s (C.raw d) = Stage.handle cfg M now s ⟨p, .none⟩ := by
  obtain ⟨n, hn, hpn⟩ := h.start
  have hread := h.read hn
  have hrewind : (if n ≠ 0 ∧ p.sessionId ∈ s then truthOf (C.raw d).rewind else .ok false) =
      .ok (if n ≠ 0 ∧ p.sessionId ∈ s then p.rewind else false) := by
    split
    · exact h.rewind
    · rfl
  have herror : (C.raw d).outputError cfg = none := by
    rw [Raw.outputError, h.argmax]
    cases cfg.isLast <;> rfl
  unfold Stage.handleRaw
  rw [h.id]
  dsimp only
  rw [if_neg hnamed, h.isOpen]
  dsimp only
  rw [hn]
  dsimp only
  rw [hrewind]
  dsimp only
  rw [herror]
  dsimp only
  rw [hread]

theorem lookup_control (d : Dict ω) (key : Key) :
    (Codec.control d).lookup key = if key ∈ controlKeys then d.lookup key else none := by
  have hfold : ∀ (keys : List Key) (r : Dict ω),
      (keys.foldl (fun r key => (d.lookup key).elim r fun item => r.put key item) r).lookup key =
        if key ∈ keys then (d.lookup key).or (r.lookup key) else r.lookup key := by
    intro keys
    induction keys with
    | nil => exact fun r => rfl
    | cons first rest ih =>
        intro r
        rw [List.foldl_cons, ih]
        cases hfirst : d.lookup first with
        | none =>
            by_cases hkey : key = first
            · subst hkey
              simp [hfirst]
            · simp [hkey]
        | some item =>
            rw [Option.elim_some, AList.lookup_put]
            by_cases hkey : key = first
            · subst hkey
              simp [hfirst]
            · simp [hkey]
  rw [Codec.control, hfold]
  split
  · exact Option.or_none
  · rfl

theorem id_congr {d d' : Dict ω} (h : d.lookup sessionKey = d'.lookup sessionKey) :
    (C.raw d).id = (C.raw d').id := by
  simp only [Codec.raw, Raw.id, h]

/-- Besides the hidden states only the control keys are handed on. -/
theorem lookup_hidden (C : Codec τ η ℓ ω) (d : Dict ω) (p : Stage.Payload τ η) {key : Key}
    (hkey : key ≠ hiddenKey) :
    (C.respond d (.hidden p)).lookup key =
      if key ∈ controlKeys then d.lookup key else none := by
  rw [← lookup_control]
  simp only [Codec.respond]
  split
  · rw [AList.lookup_put, if_neg hkey]
  · rfl

variable (C d) in
/-- A response names no session, or that of the payload. -/
theorem id_respond (response : Response τ η ℓ) :
    (C.raw (C.respond d response)).id = .ok "" ∨
      (C.raw (C.respond d response)).id = (C.raw d).id := by
  have hnone : ∀ r : Dict ω, r.lookup sessionKey = none → (C.raw r).id = .ok "" := by
    intro r hr
    simp only [Codec.raw, Raw.id, hr, Option.map_none]
  cases response with
  | closed => exact .inl (hnone _ (by simp only [Codec.respond, AList.lookup_put]; rfl))
  | cacheMiss => exact .inl (hnone _ (by simp only [Codec.respond, AList.lookup_put]; rfl))
  | argmax => exact .inl (hnone _ (by simp only [Codec.respond, AList.lookup_put]; rfl))
  | logits => exact .inl (hnone _ (by simp only [Codec.respond, AList.lookup_put]; rfl))
  | hidden p =>
      right
      apply id_congr
      rw [lookup_hidden C d p (by decide), if_pos (by decide)]

/-- What is handed on is a request that carries the hidden states. -/
theorem Reads.handOn (hC : C.Sound T) (h : Reads C d p) {t : Tensor η} (ht : t.Sized) :
    Reads C (C.respond d (.hidden (Stage.handOn p t))) (Stage.handOn p t) := by
  obtain ⟨n, hn, hpn⟩ := h.start
  have hcontrol : ∀ key ∈ controlKeys, key ≠ hiddenKey →
      (C.respond d (.hidden (Stage.handOn p t))).lookup key = d.lookup key := by
    intro key hkey hne
    rw [lookup_hidden C d _ hne, if_pos hkey]
  have hclose : (C.respond d (.hidden (Stage.handOn p t))).lookup closeKey = none := by
    rw [lookup_hidden C d _ (by decide), if_neg (by decide)]
  have hids : (C.respond d (.hidden (Stage.handOn p t))).lookup idsKey = none := by
    rw [lookup_hidden C d _ (by decide), if_neg (by decide)]
  refine ⟨?_, ?_, rfl, ⟨n, ?_, hpn⟩, ?_, ?_, ?_, ?_⟩
  · rw [id_congr (hcontrol sessionKey (by decide) (by decide))]
    exact h.id
  · rw [Codec.raw, hclose]
    rfl
  · rw [← hn, Codec.raw, Raw.start, hcontrol startKey (by decide) (by decide)]
    rfl
  · change truthOf _ = .ok p.rewind
    rw [← h.rewind, Codec.raw, hcontrol rewindKey (by decide) (by decide)]
    rfl
  · change Raw.isArgmax _ = .ok p.argmax
    rw [← h.argmax, Codec.raw, Raw.isArgmax, hcontrol outputKey (by decide) (by decide)]
    rfl
  · rw [Codec.raw, hids]
    rfl
  · have hhidden : (C.respond d (.hidden (Stage.handOn p t))).lookup hiddenKey =
        some (.other (C.ofHidden t)) := AList.lookup_put_self ..
    rw [Codec.raw, hhidden]
    exact hC.hidden t ht

theorem rid_notMem_respond (response : Response τ η ℓ) : ridKey ∉ C.respond d response := by
  rw [← AList.lookup_eq_none]
  cases response with
  | closed => simp only [Codec.respond, AList.lookup_put]; rfl
  | cacheMiss => simp only [Codec.respond, AList.lookup_put]; rfl
  | argmax => simp only [Codec.respond, AList.lookup_put]; rfl
  | logits => simp only [Codec.respond, AList.lookup_put]; rfl
  | hidden p => rw [lookup_hidden C d p (by decide), if_neg (by decide)]

end Dictionaries

/-! ### Requests -/

/-- The prompt, with all tokens that the full model decodes from it. -/
def Job.sequence {P : Pipeline.Deployment τ η ℓ κ String} (job : Job τ ℓ σ) (L : Lawful P) :
    List τ :=
  job.inputIds ++ decode L.logits job.pick job.eos job.maxNewTokens job.inputIds job.rng

section Requests

variable {S : Setup τ η ℓ κ ω} {L : Lawful S.pipeline} {jobs : String → Option (Job τ ℓ σ)}
  {i : Nat} {hi : i < S.pipeline.size} {d : Dict ω} {p : Stage.Payload τ η} {ys : List τ} {a : Nat}

/-- A request of a generation to stage `i`: it carries a prefix of the generation's sequence, from
position `a` on. -/
structure Requests (S : Setup τ η ℓ κ ω) (L : Lawful S.pipeline)
    (jobs : String → Option (Job τ ℓ σ)) (i : Nat) (hi : i < S.pipeline.size) (d : Dict ω)
    (p : Stage.Payload τ η) (ys : List τ) (a : Nat) : Prop where
  reads : Reads S.codec d p
  job : ∃ job, jobs p.sessionId = some job ∧ ys <+: job.sequence L
  carries : L.Carries p.sessionId i hi p ys a
  plain : ridKey ∉ d

/-- The end of a generation. -/
structure Closes (S : Setup τ η ℓ κ ω) (jobs : String → Option (Job τ ℓ σ)) (d : Dict ω) : Prop where
  names : S.Names jobs d
  closes : truthOf (S.codec.raw d).close = .ok true
  plain : ridKey ∉ d

theorem Requests.names (h : Requests S L jobs i hi d p ys a) : S.Names jobs d := by
  obtain ⟨job, hjob, -⟩ := h.job
  exact ⟨p.sessionId, job, hjob, h.reads.id⟩

theorem Requests.not_closes (h : Requests S L jobs i hi d p ys a) : ¬Closes S jobs d := fun hcloses => by
  cases h.reads.isOpen.symm.trans hcloses.closes

theorem row_injective {α : Type} {rest : List Nat} {xs ys : List α}
    (h : Entry.tensor (Tensor.row rest xs) = .tensor (.row rest ys)) : xs = ys :=
  congrArg Tensor.items (Entry.tensor.inj h)

/-- A payload carries one slice of one sequence. -/
theorem carries_unique {sessionId : String} {zs seq : List τ} {b : Nat}
    (h : L.Carries sessionId i hi p ys a) (h' : L.Carries sessionId i hi p zs b)
    (hys : ys <+: seq) (hzs : zs <+: seq) : ys = zs ∧ a = b := by
  obtain rfl : a = b := by
    have hstart := h.starts.symm.trans h'.starts
    exact Int.ofNat.inj (Option.some.inj hstart)
  refine ⟨?_, rfl⟩
  have hlength : ys.length - a = zs.length - a := by
    cases i with
    | zero =>
        have hitems := row_injective (h.items.symm.trans h'.items)
        simpa only [List.length_drop] using congrArg List.length hitems
    | succ i =>
        have hitems := row_injective (h.items.symm.trans h'.items)
        simpa only [List.length_drop, Causal.length_apply] using congrArg List.length hitems
  have hysLength := h.nonempty
  have hzsLength := h'.nonempty
  exact (List.prefix_of_prefix_length_le hys hzs (by omega)).eq_of_length (by omega)

theorem Requests.unique {q : Stage.Payload τ η} {zs : List τ} {b : Nat}
    (h : Requests S L jobs i hi d p ys a) (h' : Requests S L jobs i hi d q zs b) :
    p = q ∧ ys = zs ∧ a = b := by
  obtain rfl := h.reads.unique h'.reads
  obtain ⟨job, hjob, hys⟩ := h.job
  obtain ⟨job', hjob', hzs⟩ := h'.job
  obtain rfl := Option.some.inj (hjob.symm.trans hjob')
  obtain ⟨rfl, rfl⟩ := carries_unique h.carries h'.carries hys hzs
  exact ⟨rfl, rfl, rfl⟩

/-- What a stage hands on is a request to the next one. -/
theorem Requests.handOn (hC : S.codec.Sound S.transport) (h : Requests S L jobs i hi d p ys a)
    (hnext : i + 1 < S.pipeline.size) :
    Requests S L jobs (i + 1) hnext (S.codec.respond d (L.answerAt i hi p ys a))
      (Stage.handOn p (.row L.dims ((L.hidden i hi ys).drop a))) ys a := by
  have hanswer : L.answerAt i hi p ys a =
      .hidden (Stage.handOn p (.row L.dims ((L.hidden i hi ys).drop a))) := by
    unfold Lawful.answerAt
    rw [if_neg (Nat.ne_of_lt hnext)]
  rw [hanswer]
  exact ⟨h.reads.handOn hC (Tensor.sized_row _ _), h.job, h.carries.handOn hnext, rid_notMem_respond _⟩

/-! ### One payload -/

/-- For every session of a generation the table has the cache of a prefix of its sequence. -/
def Faithful (S : Setup τ η ℓ κ ω) (L : Lawful S.pipeline) (jobs : String → Option (Job τ ℓ σ))
    (i : Nat) (hi : i < S.pipeline.size) (s : Sessions κ) : Prop :=
  ∀ sessionId job sess, jobs sessionId = some job → s.lookup sessionId = some sess →
    ∃ ys, ys <+: job.sequence L ∧ L.HoldsAt i hi sess ys

/-- Whoever sends the dictionary, it is nothing else than the generations would send. -/
def Decent (S : Setup τ η ℓ κ ω) (L : Lawful S.pipeline) (jobs : String → Option (Job τ ℓ σ))
    (i : Nat) (hi : i < S.pipeline.size) (d : Dict ω) : Prop :=
  ¬S.Names jobs d ∨ Closes S jobs d ∨ ∃ p ys a, Requests S L jobs i hi d p ys a

/-- A session that is closed is said to be closed, and a request is a miss, or gets what the full
model has there. -/
structure Right (S : Setup τ η ℓ κ ω) (L : Lawful S.pipeline) (jobs : String → Option (Job τ ℓ σ))
    (i : Nat) (hi : i < S.pipeline.size) (d : Dict ω) (result : Result τ η ℓ) : Prop where
  closed : Closes S jobs d → ∀ response, result = .ok response → response = .closed
  served : ∀ p ys a, Requests S L jobs i hi d p ys a → ∀ response, result = .ok response →
    (∃ cached, response = .cacheMiss cached) ∨ response = L.answerAt i hi p ys a

variable {s : Sessions κ} {now : Stage.Instant} {cfg : Config} {worker : String}

theorem Requests.named (hnames : jobs "" = none) (h : Requests S L jobs i hi d p ys a) :
    p.sessionId ≠ "" := by
  obtain ⟨job, hjob, -⟩ := h.job
  intro hempty
  rw [hempty, hnames] at hjob
  cases hjob

/-- A stored cache that is long enough agrees with a request up to where it starts. -/
theorem Requests.stored (hs : Faithful S L jobs i hi s) (h : Requests S L jobs i hi d p ys a)
    {sess : Session κ} (hsess : s.lookup p.sessionId = some sess) (hle : (a : Int) ≤ sess.length) :
    ∃ zs, L.HoldsAt i hi sess zs ∧ zs.take a = ys.take a := by
  obtain ⟨job, hjob, hys⟩ := h.job
  obtain ⟨zs, hzs, hholds⟩ := hs _ _ _ hjob hsess
  have hlong : a ≤ zs.length := by
    have hlength := hholds.length
    omega
  exact ⟨zs, hholds, (Pipeline.take_eq_of_extends hzs hlong).trans
    (Pipeline.take_eq_of_extends hys (Nat.le_of_lt h.carries.nonempty)).symm⟩

/-- One request on a faithful table. -/
theorem Requests.handle (hnames : jobs "" = none) (hs : Faithful S L jobs i hi s)
    (h : Requests S L jobs i hi d p ys a) (worker : String) (now : Stage.Instant) :
    let outcome := handleRaw (S.pipeline.config i worker) (S.pipeline.model i) now s (S.codec.raw d)
    ((∃ cached, outcome = (.ok (.cacheMiss cached), s)) ∨
      outcome.1 = .ok (L.answerAt i hi p ys a) ∧
        ∀ sess, outcome.2.lookup p.sessionId = some sess → L.HoldsAt i hi sess ys) := by
  have hid := h.named hnames
  dsimp only
  rw [h.reads.handleRaw hid]
  rcases h.carries.handle now worker hid fun _ sess hsess hle => h.stored hs hsess hle with
    hmiss | ⟨s', hhandle, hholds⟩
  · exact .inl hmiss
  · rw [hhandle]
    exact .inr ⟨rfl, hholds⟩

/-- One payload keeps the table faithful and is answered as it should be. -/
theorem handleRaw_faithful (hnames : jobs "" = none) (hs : Faithful S L jobs i hi s)
    (hd : Decent S L jobs i hi d) (worker : String) (now : Stage.Instant) :
    let outcome := handleRaw (S.pipeline.config i worker) (S.pipeline.model i) now s (S.codec.raw d)
    Faithful S L jobs i hi outcome.2 ∧ Right S L jobs i hi d outcome.1 := by
  set outcome := handleRaw (S.pipeline.config i worker) (S.pipeline.model i) now s (S.codec.raw d)
    with houtcome
  have hother : ∀ sessionId sess, (S.codec.raw d).id ≠ .ok sessionId →
      outcome.2.lookup sessionId = some sess → s.lookup sessionId = some sess :=
    fun sessionId sess hid => Stage.handleRaw_other _ hid
  rcases hd with hforeign | hcloses | ⟨p, ys, a, h⟩
  · refine ⟨fun sessionId job sess hjob hsess => ?_,
      fun hcloses => absurd hcloses.names hforeign, fun p ys a h => absurd h.names hforeign⟩
    exact hs _ _ _ hjob (hother _ _ (fun hid => hforeign ⟨_, job, hjob, hid⟩) hsess)
  · obtain ⟨sessionId, job, hjob, hid⟩ := hcloses.names
    have hclosed : outcome = (.ok .closed, s.erase sessionId) := by
      have hne : sessionId ≠ "" := by
        rintro rfl
        rw [hnames] at hjob
        cases hjob
      rw [houtcome, handleRaw, hid]
      dsimp only
      rw [if_neg hne, hcloses.closes]
    refine ⟨fun other job sess hjob hsess => ?_, fun _ response hresponse => ?_,
      fun p ys a h => absurd hcloses h.not_closes⟩
    · rw [hclosed] at hsess
      by_cases heq : other = sessionId
      · rw [heq, AList.lookup_erase] at hsess
        cases hsess
      · rw [AList.lookup_erase_ne heq] at hsess
        exact hs _ _ _ hjob hsess
    · rw [hclosed] at hresponse
      exact (Except.ok.inj hresponse).symm
  · have hhandle := h.handle hnames hs worker now
    dsimp only at hhandle
    rw [← houtcome] at hhandle
    constructor
    · intro sessionId job sess hjob hsess
      by_cases hid : (S.codec.raw d).id = .ok sessionId
      · obtain rfl : p.sessionId = sessionId := Except.ok.inj (h.reads.id.symm.trans hid)
        rcases hhandle with ⟨cached, hmiss⟩ | ⟨-, hholds⟩
        · rw [hmiss] at hsess
          exact hs _ _ _ hjob hsess
        · obtain ⟨job', hjob', hys⟩ := h.job
          obtain rfl := Option.some.inj (hjob.symm.trans hjob')
          exact ⟨ys, hys, hholds sess hsess⟩
      · exact hs _ _ _ hjob (hother _ _ hid hsess)
    · refine ⟨fun hcloses => absurd hcloses h.not_closes, fun q zs b h' response hresponse => ?_⟩
      obtain ⟨rfl, rfl, rfl⟩ := h.unique h'
      rcases hhandle with ⟨cached, hmiss⟩ | ⟨hanswer, -⟩
      · rw [hmiss] at hresponse
        exact .inl ⟨cached, (Except.ok.inj hresponse).symm⟩
      · exact .inr (Except.ok.inj (hresponse.symm.trans hanswer))

end Requests
end Distllm.Serving
