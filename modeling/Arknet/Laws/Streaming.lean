import Arknet.Compute.Stream
import Arknet.Lib.Runs

/-!
The stream of a job. Between the decoder and the bridge stands a channel of 64 items and a push that
does not wait: a stream read to its end is the session's, token by token and with its end, exactly
when the decoder was never 64 items ahead of the bridge (`stream_lossless`).
-/

namespace Arknet.Laws

open Machine Arknet.Chain Arknet.Inference Arknet.Compute

/-! ## What a session emits -/

/-- Tokens as long as the sink takes them, then the end: an error, or a stop; a refused token is
followed by the stop of a cancelled session. -/
inductive Streams : Session → Prop where
  | failed (e : InferenceError) : Streams (.done (.error e))
  | stopped {outcome : SessionOutcome} (h : outcome.reason ≠ .cancelled) : Streams (.stop outcome)
  | token {t : TokenEvent} {answered : Bool → Session} (hkept : Streams (answered true))
      (hrefused : ∃ outcome : SessionOutcome, outcome.reason = .cancelled ∧ answered false = .stop outcome) :
      Streams (.push (.token t) answered)

section

variable {σ : Type} {B : Backend σ} {req : SessionRequest}

theorem generate_streams (indices : List U32) (ctx : σ) (g : Generated) :
    Streams (generate B req indices ctx g) := by
  induction indices generalizing ctx g with
  | nil => exact .stopped (by simp [Generated.outcome])
  | cons index rest ih =>
    simp only [generate]
    split
    · exact .stopped (by simp [Generated.outcome])
    split
    · exact .token (.stopped (by simp [Generated.outcome])) ⟨_, rfl, rfl⟩
    · refine .token ?_ ⟨_, rfl, rfl⟩
      simp only [↓reduceIte]
      split
      · exact .failed _
      · exact ih _ _

/-- Whatever the backend answers, a session streams. -/
theorem run_streams {s : Session} (h : Session.run B req = .ok s) : Streams s := by
  unfold Session.run at h
  split at h
  · cases h
    exact .failed _
  split at h
  · cases h
    exact .failed _
  split at h
  · cases h
    exact .failed _
  simp only [bind_eq_ok] at h
  obtain ⟨needed, -, h⟩ := h
  split at h
  · cases h
    exact .failed _
  split at h
  · cases h
    exact .failed _
  · cases h
    exact generate_streams _ _ _

end

/-- The pushes of a decode thread from here to its end, with their answers. -/
inductive Emits : Decoder → List (StreamItem × Bool) → Prop where
  | exited : Emits .exited []
  | left {d : Decoder} (h : d.returned = true) : Emits d []
  | push {d : Decoder} {item : StreamItem} {answered : Bool → Decoder} {kept : Bool}
      {rest : List (StreamItem × Bool)} (h : d.next = some (item, answered))
      (hrest : Emits (answered kept) rest) : Emits d ((item, kept) :: rest)

/-- The end of a session that was not cancelled. -/
def IsLast : StreamItem → Prop
  | .error _ => True
  | .ok (.stop reason) => reason ≠ .cancelled
  | .ok (.token _) => False

/-- Tokens the sink took. -/
def sent (ts : List TokenEvent) : List (StreamItem × Bool) := ts.map (fun t => (.ok (.token t), true))

theorem emits_stop {outcome : SessionOutcome} {pushes : List (StreamItem × Bool)}
    (h : Emits (.running (.stop outcome)) pushes) :
    ∃ kept, pushes = [(.ok (.stop outcome.reason), kept)] := by
  cases h with
  | left h => cases h
  | push h hrest =>
    cases h
    cases hrest with
    | left h => exact ⟨_, rfl⟩
    | push h hrest => cases h

/-- Either every token was taken and the end came last, or one was refused and the session cancelled. -/
theorem Streams.emits {s : Session} (hs : Streams s) {pushes : List (StreamItem × Bool)}
    (h : Emits (.running s) pushes) : ∃ ts,
      (∃ last kept, IsLast last ∧ pushes = sent ts ++ [(last, kept)]) ∨
      ∃ t kept, pushes = sent ts ++ [(.ok (.token t), false), (.ok (.stop .cancelled), kept)] := by
  induction hs generalizing pushes with
  | failed e =>
    cases h with
    | left h => cases h
    | push h hrest =>
      cases h
      cases hrest with
      | left h => exact ⟨[], .inl ⟨.error e, _, trivial, rfl⟩⟩
      | push h hrest => cases h
  | stopped hreason =>
    obtain ⟨kept, rfl⟩ := emits_stop h
    exact ⟨[], .inl ⟨.ok (.stop _), kept, hreason, rfl⟩⟩
  | @token t answered hkept hrefused ih =>
    cases h with
    | left h => cases h
    | @push _ _ _ kept rest h hrest =>
      cases h
      cases kept with
      | false =>
        have hstop : Emits (.running (answered false)) rest := hrest
        obtain ⟨outcome, hcancelled, hrefused⟩ := hrefused
        rw [hrefused] at hstop
        obtain ⟨kept, rfl⟩ := emits_stop hstop
        rw [hcancelled]
        exact ⟨[], .inr ⟨t, kept, rfl⟩⟩
      | true =>
        obtain ⟨ts, ⟨last, kept, hlast, rfl⟩ | ⟨t', kept, rfl⟩⟩ := ih hrest
        · exact ⟨t :: ts, .inl ⟨last, kept, hlast, rfl⟩⟩
        · exact ⟨t :: ts, .inr ⟨t', kept, rfl⟩⟩

/-! ## One move -/

section

variable {K : Primitives} {jobId : JobId} {p p' : Pipeline} {m : Move}

/-- What a move does. -/
theorem moves_cases (h : p.Moves K jobId m p') :
    (m = .push ∧ ∃ item answered, p.decoder.next = some (item, answered) ∧
      ((∃ engine, p.engine.trySend item = some engine ∧ p' = { p with
          decoder := answered true, engine := engine, pushed := p.pushed ++ [(item, true)] }) ∨
        (p.engine.trySend item = none ∧ p' = { p with
          decoder := answered false, pushed := p.pushed ++ [(item, false)] }))) ∨
    (m = .exit ∧ p.decoder.returned = true ∧ p' = { p with decoder := .exited }) ∨
    (m = .take ∧ p.holding = none ∧ ∃ item engine, p.engine.recv = some (item, engine) ∧
      p' = { p with
        engine := engine
        bridge := (p.bridge.forward K jobId item).2
        holding := some (p.bridge.forward K jobId item).1 }) ∨
    (m = .forward ∧ ∃ event jobs, p.holding = some event ∧ p.jobs.trySend event = some jobs ∧
      p' = { p with jobs := jobs, holding := none }) ∨
    (m = .close ∧ p.decoder = .exited ∧ p.engine.queue = [] ∧ p.holding = none ∧ p.bridging = true ∧
      p' = { p with bridging := false }) ∨
    (m = .read ∧ ∃ event jobs, p.jobs.recv = some (event, jobs) ∧
      p' = { p with jobs := jobs, received := p.received ++ [event] }) ∨
    (m = .finish ∧ p.bridging = false ∧ p.jobs.queue = [] ∧ p.ended = false ∧
      p' = { p with ended := true }) := by
  unfold Pipeline.Moves at h
  cases m with
  | push =>
    left
    simp only [Pipeline.step, Pipeline.push] at h
    split at h
    · cases h
    · rename_i item answered hnext
      refine ⟨rfl, item, answered, hnext, ?_⟩
      split at h
      · rename_i engine hsend
        exact .inl ⟨engine, hsend, (Option.some.inj h).symm⟩
      · rename_i hsend
        exact .inr ⟨hsend, (Option.some.inj h).symm⟩
  | exit =>
    right; left
    simp only [Pipeline.step] at h
    split at h
    · rename_i hreturned
      exact ⟨rfl, hreturned, (Option.some.inj h).symm⟩
    · cases h
  | take =>
    right; right; left
    simp only [Pipeline.step, Pipeline.take] at h
    split at h
    · rename_i item engine hholding hrecv
      exact ⟨rfl, hholding, item, engine, hrecv, (Option.some.inj h).symm⟩
    · cases h
  | forward =>
    right; right; right; left
    simp only [Pipeline.step, Pipeline.forward] at h
    split at h
    · cases h
    · rename_i event hholding
      split at h
      · cases h
      · rename_i jobs hsend
        exact ⟨rfl, event, jobs, hholding, hsend, (Option.some.inj h).symm⟩
  | close =>
    right; right; right; right; left
    simp only [Pipeline.step] at h
    split at h
    · rename_i hclose
      simp only [Bool.and_eq_true, List.isEmpty_iff, Option.isNone_iff_eq_none] at hclose
      obtain ⟨⟨⟨hbridging, hexited⟩, hengine⟩, hholding⟩ := hclose
      refine ⟨rfl, ?_, hengine, hholding, hbridging, (Option.some.inj h).symm⟩
      cases hd : p.decoder with
      | exited => rfl
      | running s =>
        rw [hd] at hexited
        cases hexited
      | leaving =>
        rw [hd] at hexited
        cases hexited
    · cases h
  | read =>
    right; right; right; right; right; left
    simp only [Pipeline.step, Pipeline.read] at h
    split at h
    · cases h
    · rename_i event jobs hrecv
      exact ⟨rfl, event, jobs, hrecv, (Option.some.inj h).symm⟩
  | finish =>
    right; right; right; right; right; right
    simp only [Pipeline.step] at h
    split at h
    · rename_i hfinish
      simp only [Bool.and_eq_true, Bool.not_eq_true', List.isEmpty_iff] at hfinish
      obtain ⟨⟨hended, hbridging⟩, hjobs⟩ := hfinish
      exact ⟨rfl, hbridging, hjobs, hended, (Option.some.inj h).symm⟩
    · cases h

/-! ## What is on its way -/

/-- The items that found room. -/
def keptItems (pushes : List (StreamItem × Bool)) : List StreamItem :=
  pushes.filterMap (fun q => if q.2 then some q.1 else none)

theorem keptItems_snoc (pushes : List (StreamItem × Bool)) (item : StreamItem) (kept : Bool) :
    keptItems (pushes ++ [(item, kept)]) = keptItems pushes ++ (if kept then [item] else []) := by
  cases kept <;> simp [keptItems]

theorem forwardAll_snoc (b : Bridge) (items : List StreamItem) (item : StreamItem) :
    b.forwardAll K jobId (items ++ [item]) =
      ((b.forwardAll K jobId items).1 ++ [((b.forwardAll K jobId items).2.forward K jobId item).1],
        ((b.forwardAll K jobId items).2.forward K jobId item).2) := by
  induction items generalizing b with
  | nil => rfl
  | cons first rest ih =>
    show (_ :: ((b.forward K jobId first).2.forwardAll K jobId (rest ++ [item])).1,
      ((b.forward K jobId first).2.forwardAll K jobId (rest ++ [item])).2) = _
    rw [ih]
    rfl

/-- Every item pushed with room is in the engine's channel or has become an event, which is held, in
the job's channel or read; what is left to push is what the session has left. -/
structure Flow (K : Primitives) (jobId : JobId) (s : Session) (p : Pipeline) : Prop where
  taken : ∃ taken, taken ++ p.engine.queue = keptItems p.pushed ∧
    p.received ++ p.jobs.queue ++ p.holding.toList = ((Bridge.new K).forwardAll K jobId taken).1 ∧
    p.bridge = ((Bridge.new K).forwardAll K jobId taken).2
  emitted : ∀ rest, Emits p.decoder rest → Emits (.running s) (p.pushed ++ rest)
  closed : p.bridging = false → p.decoder = .exited ∧ p.engine.queue = [] ∧ p.holding = none
  ended : p.ended = true → p.bridging = false ∧ p.jobs.queue = []

theorem flow_start (s : Session) : Flow K jobId s (.start K s) where
  taken := ⟨[], rfl, rfl, rfl⟩
  emitted := fun _ h => h
  closed := fun h => by cases h
  ended := fun h => by cases h

/-- A push keeps the flow, whichever way it goes. -/
theorem Flow.push {s : Session} (hf : Flow K jobId s p) {item : StreamItem} {answered : Bool → Decoder}
    {engine : Channel StreamItem ENGINE_BUFFER} {kept : Bool}
    (hnext : p.decoder.next = some (item, answered))
    (hqueue : engine.queue = p.engine.queue ++ (if kept then [item] else [])) :
    Flow K jobId s { p with
      decoder := answered kept, engine := engine, pushed := p.pushed ++ [(item, kept)] } where
  taken := by
    obtain ⟨taken, hkept, hevents, hbridge⟩ := hf.taken
    refine ⟨taken, ?_, hevents, hbridge⟩
    show taken ++ engine.queue = keptItems (p.pushed ++ [(item, kept)])
    rw [keptItems_snoc, hqueue, ← List.append_assoc, hkept]
  emitted := by
    intro rest hrest
    have h := hf.emitted _ (Emits.push hnext hrest)
    rw [List.append_cons] at h
    exact h
  closed := by
    intro hbridging
    have hexited := (hf.closed hbridging).1
    rw [hexited] at hnext
    cases hnext
  ended := hf.ended

theorem Flow.step {s : Session} (hf : Flow K jobId s p) (h : p.Moves K jobId m p') :
    Flow K jobId s p' := by
  obtain ⟨taken, hkept, hevents, hbridge⟩ := hf.taken
  obtain ⟨rfl, item, answered, hnext, ⟨engine, hsend, rfl⟩ | ⟨-, rfl⟩⟩ | ⟨rfl, hreturned, rfl⟩ |
    ⟨rfl, hholding, item, engine, hrecv, rfl⟩ | ⟨rfl, event, jobs, hholding, hsend, rfl⟩ |
    ⟨rfl, hexited, hengine, hholding, -, rfl⟩ | ⟨rfl, event, jobs, hrecv, rfl⟩ |
    ⟨rfl, hbridging, hjobs, -, rfl⟩ := moves_cases h
  · exact hf.push hnext (by simpa using (Channel.trySend_eq_some.mp hsend).2)
  · exact hf.push hnext (by simp)
  · refine ⟨⟨taken, hkept, hevents, hbridge⟩, fun rest hrest => ?_, fun hb => ?_, hf.ended⟩
    · cases hrest with
      | exited => exact hf.emitted [] (.left hreturned)
      | left h => cases h
      | push h _ => cases h
    · exact ⟨rfl, (hf.closed hb).2⟩
  · have hqueue := Channel.recv_eq_some.mp hrecv
    refine ⟨⟨taken ++ [item], ?_, ?_, ?_⟩, hf.emitted, fun hb => ?_, hf.ended⟩
    · show taken ++ [item] ++ engine.queue = _
      rw [← List.append_cons, ← hqueue, hkept]
    · rw [forwardAll_snoc, ← hevents, hholding, ← hbridge]
      simp
    · rw [forwardAll_snoc, ← hbridge]
    · have hempty := (hf.closed hb).2.1
      rw [hqueue] at hempty
      cases hempty
  · have hqueue := (Channel.trySend_eq_some.mp hsend).2
    refine ⟨⟨taken, hkept, ?_, hbridge⟩, hf.emitted, fun hb => ?_, fun he => ?_⟩
    · rw [← hevents, hholding]
      show p.received ++ jobs.queue ++ [] = _
      rw [hqueue]
      simp
    · have hnone := (hf.closed hb).2.2
      rw [hholding] at hnone
      cases hnone
    · have hnone := (hf.closed (hf.ended he).1).2.2
      rw [hholding] at hnone
      cases hnone
  · refine ⟨⟨taken, hkept, hevents, hbridge⟩, hf.emitted, fun _ => ⟨hexited, hengine, hholding⟩,
      fun he => ⟨rfl, (hf.ended he).2⟩⟩
  · have hqueue := Channel.recv_eq_some.mp hrecv
    refine ⟨⟨taken, hkept, ?_, hbridge⟩, hf.emitted, hf.closed, fun he => ?_⟩
    · rw [← hevents, hqueue]
      simp
    · have hempty := (hf.ended he).2
      rw [hqueue] at hempty
      cases hempty
  · exact ⟨⟨taken, hkept, hevents, hbridge⟩, hf.emitted, hf.closed, fun _ => ⟨hbridging, hjobs⟩⟩

theorem run_flow {s : Session} {moves : List Move}
    (run : Runs.Steps (Pipeline.Moves K jobId) (.start K s) moves p) : Flow K jobId s p :=
  run.invariant (Flow K jobId s) (flow_start s) (fun _ _ _ hf h => hf.step h)

/-! ## Where it stops -/

/-- A stream in which nobody can move has been read to its end. -/
theorem stuck_drained {s : Session} (hf : Flow K jobId s p) (hstuck : p.Stuck K jobId) :
    Emits (.running s) p.pushed ∧
      p.received = ((Bridge.new K).forwardAll K jobId (keptItems p.pushed)).1 := by
  have hjobs : p.jobs.queue = [] := by
    have h := hstuck .read
    simp only [Pipeline.step, Pipeline.read] at h
    split at h
    · rename_i hrecv
      exact Channel.recv_eq_none.mp hrecv
    · cases h
  have hholding : p.holding = none := by
    have h := hstuck .forward
    simp only [Pipeline.step, Pipeline.forward] at h
    split at h
    · assumption
    · split at h
      · rename_i hfull
        have hlen := Channel.trySend_eq_none.mp hfull
        rw [hjobs] at hlen
        cases hlen
      · cases h
  have hengine : p.engine.queue = [] := by
    have h := hstuck .take
    simp only [Pipeline.step, Pipeline.take, hholding] at h
    split at h
    · cases h
    · rename_i hrecv
      cases hr : p.engine.recv with
      | none => exact Channel.recv_eq_none.mp hr
      | some q => exact absurd hr (hrecv q.1 q.2 rfl)
  have hexited : Emits p.decoder [] := by
    cases hd : p.decoder with
    | exited => exact .exited
    | leaving => exact .left rfl
    | running session =>
      have hnone : p.decoder.next = none := by
        have h := hstuck .push
        simp only [Pipeline.step, Pipeline.push] at h
        split at h
        · assumption
        · split at h <;> cases h
      rw [hd] at hnone
      cases session with
      | push event answered => cases hnone
      | done result =>
        cases result with
        | error e => cases hnone
        | ok reason => exact .left rfl
  obtain ⟨taken, hkept, hevents, -⟩ := hf.taken
  rw [hengine, List.append_nil] at hkept
  rw [hjobs, hholding, Option.toList_none, List.append_nil, List.append_nil, hkept] at hevents
  have hemits := hf.emitted [] hexited
  rw [List.append_nil] at hemits
  exact ⟨hemits, hevents⟩

/-! ## How long it runs -/

/-- The pushes a session has left at most. -/
def sessionSize : Session → Nat
  | .push _ answered => max (sessionSize (answered true)) (sessionSize (answered false)) + 1
  | .done (.error _) => 1
  | .done (.ok _) => 0

def decoderSize : Decoder → Nat
  | .running session => sessionSize session + 1
  | .leaving => 1
  | .exited => 0

theorem decoderSize_next {d : Decoder} {item : StreamItem} {answered : Bool → Decoder}
    (h : d.next = some (item, answered)) (kept : Bool) :
    decoderSize (answered kept) + 1 ≤ decoderSize d := by
  cases d with
  | running session =>
    cases session with
    | push event k =>
      cases h
      cases kept with
      | true => simp only [decoderSize, sessionSize]; omega
      | false => simp only [decoderSize, sessionSize]; omega
    | done result =>
      cases result with
      | error e =>
        cases h
        exact Nat.le_refl _
      | ok outcome => cases h
  | leaving => cases h
  | exited => cases h

/-- The moves that are left at most: an item is taken, forwarded and read. -/
def movesLeft (p : Pipeline) : Nat :=
  4 * decoderSize p.decoder + 3 * p.engine.queue.length + 2 * p.holding.toList.length +
    p.jobs.queue.length + p.bridging.toNat + (!p.ended).toNat

theorem movesLeft_step (h : p.Moves K jobId m p') : movesLeft p' + 1 ≤ movesLeft p := by
  obtain ⟨rfl, item, answered, hnext, ⟨engine, hsend, rfl⟩ | ⟨-, rfl⟩⟩ | ⟨rfl, hreturned, rfl⟩ |
    ⟨rfl, hholding, item, engine, hrecv, rfl⟩ | ⟨rfl, event, jobs, hholding, hsend, rfl⟩ |
    ⟨rfl, -, -, -, hbridging, rfl⟩ | ⟨rfl, event, jobs, hrecv, rfl⟩ | ⟨rfl, -, -, hended, rfl⟩ :=
    moves_cases h
  · have hsize := decoderSize_next hnext true
    have hlen := congrArg List.length (Channel.trySend_eq_some.mp hsend).2
    simp only [List.length_append, List.length_singleton] at hlen
    simp only [movesLeft]
    omega
  · have hsize := decoderSize_next hnext false
    simp only [movesLeft]
    omega
  · have hsize : 1 ≤ decoderSize p.decoder := by
      cases hd : p.decoder with
      | running session => exact Nat.le_add_left _ _
      | leaving => exact Nat.le_refl _
      | exited =>
        rw [hd] at hreturned
        cases hreturned
    simp only [movesLeft]
    have : decoderSize .exited = 0 := rfl
    omega
  · have hlen := congrArg List.length (Channel.recv_eq_some.mp hrecv)
    simp only [List.length_cons] at hlen
    simp only [movesLeft, hholding, Option.toList_none, Option.toList_some, List.length_nil,
      List.length_singleton]
    omega
  · have hlen := congrArg List.length (Channel.trySend_eq_some.mp hsend).2
    simp only [List.length_append, List.length_singleton] at hlen
    simp only [movesLeft, hholding, Option.toList_none, Option.toList_some, List.length_nil,
      List.length_singleton]
    omega
  · simp only [movesLeft, hbridging, Bool.toNat_true, Bool.toNat_false]
    omega
  · have hlen := congrArg List.length (Channel.recv_eq_some.mp hrecv)
    simp only [List.length_cons] at hlen
    simp only [movesLeft]
    omega
  · simp only [movesLeft, hended, Bool.not_true, Bool.not_false, Bool.toNat_true, Bool.toNat_false]
    omega

theorem run_length {q : Pipeline} {moves : List Move}
    (run : Runs.Steps (Pipeline.Moves K jobId) q moves p) :
    moves.length + movesLeft p ≤ movesLeft q := by
  induction run with
  | nil => simp
  | snoc run last ih =>
    have hstep := movesLeft_step last
    rw [List.length_append, List.length_singleton]
    omega

/-! ## The pace of the decoder -/

/-- Whenever the decoder pushes, the bridge has taken all but 63 of the items before. -/
def Paced (moves : List Move) : Prop :=
  ∀ past rest, moves = past ++ .push :: rest → past.count .push < past.count .take + ENGINE_BUFFER

theorem paced_snoc {moves : List Move} {m : Move} : Paced (moves ++ [m]) ↔
    Paced moves ∧ (m = .push → moves.count .push < moves.count .take + ENGINE_BUFFER) := by
  constructor
  · intro h
    refine ⟨fun past rest heq => h past (rest ++ [m]) (by rw [heq]; simp), ?_⟩
    rintro rfl
    exact h moves [] rfl
  · rintro ⟨h, hlast⟩ past rest heq
    rcases List.eq_nil_or_concat rest with rfl | ⟨init, last, rfl⟩
    · obtain ⟨rfl, rfl⟩ := List.append_singleton_inj.mp heq
      exact hlast rfl
    · rw [List.concat_eq_append, ← List.cons_append, ← List.append_assoc] at heq
      exact h past init (List.append_singleton_inj.mp heq).1

/-- Every push found room so far. -/
def AllKept (p : Pipeline) : Prop := ∀ q ∈ p.pushed, q.2 = true

theorem allKept_snoc {pushes : List (StreamItem × Bool)} {item : StreamItem} {kept : Bool} :
    (∀ q ∈ pushes ++ [(item, kept)], q.2 = true) ↔ (∀ q ∈ pushes, q.2 = true) ∧ kept = true := by
  simp [or_imp, forall_and]

/-- Every push finds room exactly when the decoder is paced; then the engine's channel holds what was
pushed and not taken. -/
theorem allKept_iff {s : Session} {moves : List Move}
    (run : Runs.Steps (Pipeline.Moves K jobId) (.start K s) moves p) :
    (AllKept p ↔ Paced moves) ∧
      (AllKept p → p.engine.queue.length + moves.count .take = moves.count .push) := by
  induction run with
  | nil => exact ⟨iff_of_true (by simp [AllKept, Pipeline.start]) (by simp [Paced]), fun _ => rfl⟩
  | snoc run last ih =>
    rename_i moves p p' m
    obtain ⟨hiff, hcount⟩ := ih
    rw [paced_snoc, ← hiff, List.count_append, List.count_append]
    obtain ⟨rfl, item, answered, hnext, ⟨engine, hsend, rfl⟩ | ⟨hfull, rfl⟩⟩ | ⟨rfl, hreturned, rfl⟩ |
      ⟨rfl, hholding, item, engine, hrecv, rfl⟩ | ⟨rfl, event, jobs, hholding, hsend, rfl⟩ |
      ⟨rfl, -, -, -, hbridging, rfl⟩ | ⟨rfl, event, jobs, hrecv, rfl⟩ | ⟨rfl, -, -, hended, rfl⟩ :=
      moves_cases last
    · obtain ⟨hroom, hqueue⟩ := Channel.trySend_eq_some.mp hsend
      have hall : AllKept { p with
          decoder := answered true, engine := engine, pushed := p.pushed ++ [(item, true)] } ↔
            AllKept p := allKept_snoc.trans (and_iff_left rfl)
      rw [hall]
      refine ⟨⟨fun h => ⟨h, fun _ => ?_⟩, fun h => h.1⟩, fun h => ?_⟩
      · have := hcount h
        omega
      · have := hcount h
        show engine.queue.length + _ = _
        rw [hqueue]
        simp only [List.length_append, List.length_singleton, List.count_singleton_self]
        have : [Move.push].count .take = 0 := rfl
        omega
    · have hlen := Channel.trySend_eq_none.mp hfull
      have hall : ¬ AllKept { p with
          decoder := answered false, pushed := p.pushed ++ [(item, false)] } := by
        intro h
        cases (allKept_snoc.mp h).2
      refine ⟨iff_of_false hall fun h => ?_, fun h => absurd h hall⟩
      have hc := hcount h.1
      have := h.2 rfl
      omega
    · exact ⟨⟨fun h => ⟨h, fun he => by cases he⟩, fun h => h.1⟩, hcount⟩
    · have hqueue := congrArg List.length (Channel.recv_eq_some.mp hrecv)
      refine ⟨⟨fun h => ⟨h, fun he => by cases he⟩, fun h => h.1⟩, fun h => ?_⟩
      have hc := hcount h
      rw [List.length_cons] at hqueue
      show engine.queue.length + (_ + 1) = _ + 0
      omega
    · exact ⟨⟨fun h => ⟨h, fun he => by cases he⟩, fun h => h.1⟩, hcount⟩
    · exact ⟨⟨fun h => ⟨h, fun he => by cases he⟩, fun h => h.1⟩, hcount⟩
    · exact ⟨⟨fun h => ⟨h, fun he => by cases he⟩, fun h => h.1⟩, hcount⟩
    · exact ⟨⟨fun h => ⟨h, fun he => by cases he⟩, fun h => h.1⟩, hcount⟩

/-! ## The law -/

/-- The tokens the session emitted, whether or not there was room for them. -/
def sessionTokens (pushes : List (StreamItem × Bool)) : List TokenEvent :=
  pushes.filterMap (fun q =>
    match q.1 with
    | .ok (.token t) => some t
    | _ => none)

/-- What the bridge makes of tokens. -/
def tokenEvents (K : Primitives) (jobId : JobId) (ts : List TokenEvent) : List InferenceJobEvent :=
  ((Bridge.new K).forwardAll K jobId (ts.map (fun t => .ok (.token t)))).1

/-- The reader got every token of the session in order and then one terminal event, and the session
was not cancelled. -/
structure Lossless (K : Primitives) (jobId : JobId) (p : Pipeline) : Prop where
  delivered : ∃ last, last.isTerminal = true ∧
    p.received = tokenEvents K jobId (sessionTokens p.pushed) ++ [last]
  notCancelled : ∀ kept, (.ok (.stop .cancelled), kept) ∉ p.pushed

theorem keptItems_sent (ts : List TokenEvent) :
    keptItems (sent ts) = ts.map (fun t => .ok (.token t)) := by
  induction ts with
  | nil => rfl
  | cons t ts ih =>
    show (.ok (.token t) : StreamItem) :: keptItems (sent ts) = _
    rw [ih]
    rfl

theorem sessionTokens_sent (ts : List TokenEvent) (pushes : List (StreamItem × Bool)) :
    sessionTokens (sent ts ++ pushes) = ts ++ sessionTokens pushes := by
  induction ts with
  | nil => rfl
  | cons t ts ih =>
    show t :: sessionTokens (sent ts ++ pushes) = _
    rw [ih]
    rfl

theorem sessionTokens_last {last : StreamItem} (h : IsLast last) (kept : Bool) :
    sessionTokens [(last, kept)] = [] := by
  cases last with
  | error e => rfl
  | ok event =>
    cases event with
    | token t => exact absurd h id
    | stop reason => rfl

theorem forward_last {last : StreamItem} (h : IsLast last) (b : Bridge) :
    (b.forward K jobId last).1.isTerminal = true := by
  cases last with
  | error e => rfl
  | ok event =>
    cases event with
    | token t => exact absurd h id
    | stop reason => rfl

/-- At its end a stream is lossless exactly when every push found room. -/
theorem lossless_iff {s : Session} (hs : Streams s) (hemits : Emits (.running s) p.pushed)
    (hreceived : p.received = ((Bridge.new K).forwardAll K jobId (keptItems p.pushed)).1) :
    Lossless K jobId p ↔ AllKept p := by
  obtain ⟨ts, ⟨last, kept, hlast, hpushed⟩ | ⟨t, kept, hpushed⟩⟩ := hs.emits hemits
  · have htokens : sessionTokens p.pushed = ts := by
      rw [hpushed, sessionTokens_sent, sessionTokens_last hlast, List.append_nil]
    rw [hpushed, keptItems_snoc, keptItems_sent] at hreceived
    cases kept with
    | true =>
      rw [if_pos rfl, forwardAll_snoc] at hreceived
      have hdelivered : ∃ end', end'.isTerminal = true ∧
          p.received = tokenEvents K jobId (sessionTokens p.pushed) ++ [end'] := by
        rw [htokens, hreceived]
        exact ⟨_, forward_last hlast _, rfl⟩
      refine iff_of_true ⟨hdelivered, fun kept hmem => ?_⟩ ?_
      · rw [hpushed, List.mem_append, List.mem_singleton] at hmem
        rcases hmem with hmem | hmem
        · simp [sent] at hmem
        · cases hmem
          exact hlast rfl
      · rw [AllKept, hpushed]
        exact allKept_snoc.mpr ⟨by simp [sent], rfl⟩
    | false =>
      -- The end itself found no room: nothing terminal arrives.
      rw [if_neg (by simp), List.append_nil] at hreceived
      refine iff_of_false ?_ ?_
      · rintro ⟨⟨e, -, hdelivered⟩, -⟩
        rw [htokens, hreceived] at hdelivered
        have hlen := congrArg List.length hdelivered
        rw [List.length_append, List.length_singleton] at hlen
        exact absurd hlen (Nat.ne_of_lt (Nat.lt_succ_self _))
      · intro h
        rw [AllKept, hpushed] at h
        cases (allKept_snoc.mp h).2
  · refine iff_of_false ?_ ?_
    · rintro ⟨-, hnot⟩
      exact hnot kept (by rw [hpushed]; simp)
    · intro h
      have hrefused := h (.ok (.token t), false) (by rw [hpushed]; simp)
      cases hrefused

/-- The prompt's tokens and the tokens asked for are counted together without overflow. -/
def RequestFits {σ : Type} (B : Backend σ) (req : SessionRequest) : Prop :=
  ∀ ctx tokens, B.start = .ok ctx → B.encode req.prompt = .ok tokens → tokens ≠ [] →
    tokens.length % 2 ^ 32 + req.maxTokens.val < 2 ^ 32

theorem run_returns_iff {σ : Type} {B : Backend σ} {req : SessionRequest} :
    (∃ s, Session.run B req = .ok s) ↔ RequestFits B req := by
  unfold Session.run RequestFits
  cases hstart : B.start with
  | error e => exact iff_of_true ⟨_, rfl⟩ (fun _ _ h => by cases h)
  | ok ctx =>
    cases hencode : B.encode req.prompt with
    | error e => exact iff_of_true ⟨_, rfl⟩ (fun _ _ _ h => by cases h)
    | ok tokens =>
      by_cases hnil : tokens = []
      · refine iff_of_true ⟨_, if_pos hnil⟩ ?_
        rintro _ _ - h hne
        cases h
        exact absurd hnil hne
      · simp only [if_neg hnil]
        constructor
        · rintro ⟨s, hs⟩ _ _ - h -
          cases h
          simp only [bind_eq_ok] at hs
          obtain ⟨needed, hneeded, -⟩ := hs
          have hval := add_eq_ok.mp hneeded
          have hlt := needed.isLt
          simp only [truncate] at hval
          omega
        · intro hfits
          have hlt := hfits ctx tokens rfl rfl hnil
          have hadd : add (truncate 32 tokens.length) req.maxTokens =
              .ok ⟨tokens.length % 2 ^ 32 + req.maxTokens.val, hlt⟩ := add_eq_ok.mpr rfl
          simp only [hadd, ok_bind]
          split
          · exact ⟨_, rfl⟩
          · split
            · exact ⟨_, rfl⟩
            · exact ⟨_, rfl⟩

/-- A schedule run until nobody can move; a request whose session aborts takes the node with it. -/
def Complete {σ : Type} (B : Backend σ) (req : SessionRequest) (K : Primitives) (jobId : JobId)
    (moves : List Move) (final : Option Pipeline) : Prop :=
  match Session.run B req with
  | .error _ => moves = [] ∧ final = none
  | .ok s => ∃ p, final = some p ∧ Runs.Steps (Pipeline.Moves K jobId) (.start K s) moves p ∧
      p.Stuck K jobId

theorem complete_of_run {σ : Type} {B : Backend σ} {req : SessionRequest} {s : Session}
    {moves : List Move} (hrun : Session.run B req = .ok s)
    (run : Runs.Steps (Pipeline.Moves K jobId) (.start K s) moves p) (hstuck : p.Stuck K jobId) :
    Complete B req K jobId moves (some p) := by
  unfold Complete
  rw [hrun]
  exact ⟨p, rfl, run, hstuck⟩

/-- For every backend and request every schedule ends, and where it ends the stream was lossless
exactly when the request fits and the decoder was paced. -/
theorem stream_lossless {σ : Type} (B : Backend σ) (req : SessionRequest) (K : Primitives)
    (jobId : JobId) :
    (∃ bound, ∀ s moves p, Session.run B req = .ok s →
      Runs.Steps (Pipeline.Moves K jobId) (.start K s) moves p → moves.length ≤ bound) ∧
    ∀ moves final, Complete B req K jobId moves final →
      ((∃ p, final = some p ∧ Lossless K jobId p) ↔ RequestFits B req ∧ Paced moves) := by
  constructor
  · cases hrun : Session.run B req with
    | error e => exact ⟨0, fun s _ _ h => by cases h⟩
    | ok s =>
      refine ⟨movesLeft (.start K s), fun s' moves p h run => ?_⟩
      cases h
      have := run_length run
      omega
  · intro moves final hcomplete
    unfold Complete at hcomplete
    split at hcomplete
    · rename_i e hrun
      obtain ⟨-, rfl⟩ := hcomplete
      refine iff_of_false (fun h => ?_) (fun h => ?_)
      · obtain ⟨p, hp, -⟩ := h
        cases hp
      · obtain ⟨s, hs⟩ := run_returns_iff.mpr h.1
        rw [hrun] at hs
        cases hs
    · rename_i s hrun
      obtain ⟨p, rfl, run, hstuck⟩ := hcomplete
      obtain ⟨hemits, hreceived⟩ := stuck_drained (run_flow run) hstuck
      have hfits : RequestFits B req := run_returns_iff.mp ⟨s, hrun⟩
      have hiff := lossless_iff (run_streams hrun) hemits hreceived
      rw [(allKept_iff run).1] at hiff
      constructor
      · rintro ⟨q, hq, hlossless⟩
        cases hq
        exact ⟨hfits, hiff.mp hlossless⟩
      · rintro ⟨-, hpaced⟩
        exact ⟨p, rfl, hiff.mpr hpaced⟩

end

/-! ## A backend that always says hi -/

def hiBackend : Backend Unit where
  start := .ok ()
  nCtx := 4096
  encode := fun _ => .ok [1]
  decode := fun _ _ => (0, ())
  sample := fun _ => (7, ())
  eos := -1
  tokenToPiece := fun _ => [104, 105]

def hiRequest (maxTokens : U32) : SessionRequest := ⟨"hello", maxTokens, []⟩

def hiSession (maxTokens : U32) : Session :=
  generate hiBackend (hiRequest maxTokens) ((List.range maxTokens.val).map (truncate 32)) () ⟨[], .new, ""⟩

theorem hiSession_run {n : U32} (h : n.val < 4096) :
    Session.run hiBackend (hiRequest n) = .ok (hiSession n) := by
  have hneeded : 1 + n.val < 2 ^ 32 := by omega
  have hadd : add (truncate 32 1) n = .ok ⟨1 + n.val, hneeded⟩ := add_eq_ok.mpr rfl
  show (add (truncate 32 1) n >>= fun needed => _) = _
  have hroom : ¬ hiBackend.nCtx < ⟨1 + n.val, hneeded⟩ := by
    show ¬ (4096 < 1 + n.val)
    omega
  rw [hadd, ok_bind, if_neg hroom]
  rfl

/-- The moves of a schedule, one after the other. -/
def playMoves (p : Pipeline) (moves : List Move) : Option Pipeline :=
  moves.foldlM (fun p m => p.step toyPrimitives 5 m) p

theorem playMoves_steps {p q : Pipeline} {moves : List Move} (h : playMoves p moves = some q) :
    Runs.Steps (Pipeline.Moves toyPrimitives 5) p moves q := by
  induction moves generalizing p with
  | nil =>
    cases h
    exact .nil
  | cons m rest ih =>
    simp only [playMoves, List.foldlM_cons, Option.bind_eq_bind, Option.bind_eq_some_iff] at h
    obtain ⟨mid, hmid, hrest⟩ := h
    exact (ih hrest).cons hmid

/-- Nobody can move: every move tried. -/
def isStuck (p : Pipeline) : Bool :=
  [Move.push, .exit, .take, .forward, .close, .read, .finish].all
    (fun m => (p.step toyPrimitives 5 m).isNone)

theorem isStuck_stuck {p : Pipeline} (h : isStuck p = true) : p.Stuck toyPrimitives 5 := by
  intro m
  rw [isStuck, List.all_eq_true] at h
  exact Option.isNone_iff_eq_none.mp (h m (by cases m <;> simp))

/-- A bridge that keeps up. -/
def steadyMoves : List Move :=
  [.push, .take, .forward, .read, .push, .exit, .take, .forward, .read, .close, .finish]

/-- A decoder that is done with 65 tokens before anybody has read one. -/
def hastyMoves : List Move :=
  List.replicate 66 Move.push ++ [Move.exit] ++
    (List.replicate 64 [Move.take, Move.forward, Move.read]).flatten ++ [Move.close, Move.finish]

theorem steadyMoves_play : (playMoves (.start toyPrimitives (hiSession 1)) steadyMoves).any
    (fun p => isStuck p && p.received.length == 2) = true := by decide

set_option maxRecDepth 2000 in
theorem hastyMoves_play : (playMoves (.start toyPrimitives (hiSession 65)) hastyMoves).any
    (fun p => isStuck p && p.received.length == 64 && p.received.all (fun e => !e.isTerminal)) = true := by
  decide

/-- A paced schedule delivers. -/
theorem stream_lossless_steady : ∃ p, Complete hiBackend (hiRequest 1) toyPrimitives 5 steadyMoves (some p) ∧
    p.received.length = 2 ∧ Lossless toyPrimitives 5 p := by
  obtain ⟨p, hplay, hend⟩ := (Option.any_eq_true _ _).mp steadyMoves_play
  rw [Bool.and_eq_true] at hend
  have hcomplete : Complete hiBackend (hiRequest 1) toyPrimitives 5 steadyMoves (some p) :=
    complete_of_run (hiSession_run (by decide)) (playMoves_steps hplay) (isStuck_stuck hend.1)
  have hpaced : Paced steadyMoves := by
    intro past rest heq
    have hle : past.count .push ≤ steadyMoves.count .push := by
      rw [heq, List.count_append]
      exact Nat.le_add_right _ _
    have htwo : steadyMoves.count .push = 2 := by decide
    simp only [ENGINE_BUFFER]
    omega
  have hfits : RequestFits hiBackend (hiRequest 1) := run_returns_iff.mp ⟨_, hiSession_run (by decide)⟩
  obtain ⟨q, hq, hlossless⟩ := ((stream_lossless hiBackend (hiRequest 1) toyPrimitives 5).2 _ _
    hcomplete).mpr ⟨hfits, hpaced⟩
  obtain rfl := Option.some.inj hq
  exact ⟨p, hcomplete, beq_iff_eq.mp hend.2, hlossless⟩

/-- The 65th token finds no room: the reader, who never left, gets 64 tokens and no end. -/
theorem stream_cancelled : ∃ p, Complete hiBackend (hiRequest 65) toyPrimitives 5 hastyMoves (some p) ∧
    p.received.length = 64 ∧ p.received.all (fun e => !e.isTerminal) = true ∧
    ¬ Lossless toyPrimitives 5 p := by
  obtain ⟨p, hplay, hend⟩ := (Option.any_eq_true _ _).mp hastyMoves_play
  rw [Bool.and_eq_true, Bool.and_eq_true] at hend
  obtain ⟨⟨hstuck, hlength⟩, hnone⟩ := hend
  refine ⟨p, complete_of_run (hiSession_run (by decide)) (playMoves_steps hplay) (isStuck_stuck hstuck),
    beq_iff_eq.mp hlength, hnone, ?_⟩
  rintro ⟨⟨last, hlast, hreceived⟩, -⟩
  rw [List.all_eq_true] at hnone
  have hnot := hnone last (by rw [hreceived]; simp)
  rw [hlast] at hnot
  cases hnot

end Arknet.Laws
