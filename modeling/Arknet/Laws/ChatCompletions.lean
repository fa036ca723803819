import Arknet.Laws.HonestCompute
import Arknet.Laws.SessionText
import Arknet.Node.ChatCompletions

/-!
The two modes of `/v1/chat/completions` over every schedule of the decode thread and the handler. Joined,
the chunks say what the one response says; but a stream that the thread outran is answered as if it were
complete (`chat_modes_agree`).
-/

namespace Arknet.Laws

open Machine Runs Arknet.Chain Arknet.Inference Arknet.Compute Arknet.Node

/-! ## A whole session -/

def tokenItems (ts : List TokenEvent) : List StreamItem := ts.map fun t => .ok (.token t)

def failure : Except InferenceError SessionOutcome → List StreamItem
  | .error e => [.error e]
  | .ok _ => []

/-- The items of a session whose sink takes everything. -/
def wholeStream (s : Session) : List StreamItem :=
  (Session.play s fun _ => true).1.map .ok ++ failure (Session.play s fun _ => true).2

/-- What a decode thread pushes is its whole session, or it is cut short at a token that was refused. -/
theorem Streams.whole {s : Session} (hs : Streams s) : ∃ ts last, wholeStream s = tokenItems ts ++ [last] ∧
    IsLast last ∧ ∀ pushes, Emits (.running s) pushes →
      (∃ kept, pushes = sent ts ++ [(last, kept)]) ∨
      ∃ before t kept, before ++ [t] <+: ts ∧
        pushes = sent before ++ [(.ok (.token t), false), (.ok (.stop .cancelled), kept)] := by
  induction hs with
  | failed e =>
    refine ⟨[], .error e, rfl, trivial, fun pushes h => ?_⟩
    cases h with
    | left h => cases h
    | push h hrest =>
      cases h
      cases hrest with
      | left h => exact .inl ⟨_, rfl⟩
      | push h hrest => cases h
  | @stopped outcome hreason =>
    refine ⟨[], .ok (.stop outcome.reason), rfl, hreason, fun pushes h => ?_⟩
    obtain ⟨kept, rfl⟩ := emits_stop h
    exact .inl ⟨kept, rfl⟩
  | @token t answered hkept hrefused ih =>
    obtain ⟨ts, last, hwhole, hlast, hpushes⟩ := ih
    refine ⟨t :: ts, last, ?_, hlast, fun pushes h => ?_⟩
    · show _ :: wholeStream (answered true) = _
      rw [hwhole]
      rfl
    · cases h with
      | left h => cases h
      | @push _ _ _ kept rest h hrest =>
        cases h
        cases kept with
        | false =>
          have hstop : Emits (.running (answered false)) rest := hrest
          obtain ⟨outcome, hcancelled, hrefused⟩ := hrefused
          rw [hrefused] at hstop
          obtain ⟨kept, rfl⟩ := emits_stop hstop
          rw [hcancelled]
          exact .inr ⟨[], t, kept, ⟨ts, rfl⟩, rfl⟩
        | true =>
          obtain ⟨kept, rfl⟩ | ⟨before, t', kept, hstart, rfl⟩ := hpushes rest hrest
          · exact .inl ⟨kept, rfl⟩
          · exact .inr ⟨t :: before, t', kept, List.cons_prefix_cons.mpr ⟨rfl, hstart⟩, rfl⟩

/-! ## The stream of the handler -/

section

variable {c c' : ChatStream} {m : ChatMove} {s : Session}

/-- What a move does. -/
theorem chatMoves_cases (h : c.Moves m c') :
    (m = .push ∧ ∃ item answered, c.decoder.next = some (item, answered) ∧
      ((∃ engine, c.engine.trySend item = some engine ∧
          c' = { c with decoder := answered true, engine := engine, pushed := c.pushed ++ [(item, true)] }) ∨
        (c.engine.trySend item = none ∧
          c' = { c with decoder := answered false, pushed := c.pushed ++ [(item, false)] }))) ∨
    (m = .exit ∧ c.decoder.returned = true ∧ c' = { c with decoder := .exited }) ∨
    (m = .read ∧ ∃ item engine, c.engine.recv = some (item, engine) ∧
      c' = { c with engine := engine, items := c.items ++ [item] }) ∨
    (m = .finish ∧ c.decoder = .exited ∧ c.engine.queue = [] ∧ c' = { c with ended := true }) := by
  unfold ChatStream.Moves ChatStream.step at h
  cases m with
  | push =>
    obtain ⟨⟨item, answered⟩, hnext, h⟩ := Option.map_eq_some_iff.mp h
    refine .inl ⟨rfl, item, answered, hnext, ?_⟩
    dsimp only at h
    cases hsend : c.engine.trySend item with
    | some engine =>
      rw [hsend] at h
      exact .inl ⟨engine, rfl, h.symm⟩
    | none =>
      rw [hsend] at h
      exact .inr ⟨rfl, h.symm⟩
  | exit =>
    obtain ⟨hreturned, h⟩ := Option.ite_none_right_eq_some.mp h
    exact .inr (.inl ⟨rfl, hreturned, (Option.some.inj h).symm⟩)
  | read =>
    obtain ⟨⟨item, engine⟩, hrecv, h⟩ := Option.map_eq_some_iff.mp h
    exact .inr (.inr (.inl ⟨rfl, item, engine, hrecv, h.symm⟩))
  | finish =>
    obtain ⟨hcond, h⟩ := Option.ite_none_right_eq_some.mp h
    simp only [Bool.and_eq_true, List.isEmpty_iff] at hcond
    obtain ⟨⟨-, hexited⟩, hqueue⟩ := hcond
    refine .inr (.inr (.inr ⟨rfl, ?_, hqueue, (Option.some.inj h).symm⟩))
    cases hd : c.decoder with
    | exited => rfl
    | running session =>
      rw [hd] at hexited
      cases hexited
    | leaving =>
      rw [hd] at hexited
      cases hexited

/-- What was pushed with room is in the channel or was read, and what is left to push is what the session
has left. -/
structure ChatFlow (s : Session) (c : ChatStream) : Prop where
  taken : c.items ++ c.engine.queue = keptItems c.pushed
  emitted : ∀ rest, Emits c.decoder rest → Emits (.running s) (c.pushed ++ rest)
  ended : c.ended = true → c.decoder = .exited ∧ c.engine.queue = []

theorem chatFlow_start (s : Session) : ChatFlow s (.start s) where
  taken := rfl
  emitted := fun _ h => h
  ended := fun h => by cases h

theorem ChatFlow.push (hf : ChatFlow s c) {item : StreamItem} {answered : Bool → Decoder}
    {engine : Channel StreamItem ENGINE_BUFFER} {kept : Bool} (hnext : c.decoder.next = some (item, answered))
    (hqueue : engine.queue = c.engine.queue ++ (if kept then [item] else [])) :
    ChatFlow s { c with
      decoder := answered kept, engine := engine, pushed := c.pushed ++ [(item, kept)] } where
  taken := by
    show c.items ++ engine.queue = keptItems (c.pushed ++ [(item, kept)])
    rw [keptItems_snoc, hqueue, ← List.append_assoc, hf.taken]
  emitted := fun rest hrest => by
    have h := hf.emitted _ (Emits.push hnext hrest)
    rw [List.append_cons] at h
    exact h
  ended := fun he => by
    have hexited := (hf.ended he).1
    rw [hexited] at hnext
    cases hnext

theorem ChatFlow.step (hf : ChatFlow s c) (h : c.Moves m c') : ChatFlow s c' := by
  obtain ⟨rfl, item, answered, hnext, ⟨engine, hsend, rfl⟩ | ⟨-, rfl⟩⟩ | ⟨rfl, hreturned, rfl⟩ |
    ⟨rfl, item, engine, hrecv, rfl⟩ | ⟨rfl, hexited, hqueue, rfl⟩ := chatMoves_cases h
  · exact hf.push hnext (by simpa using (Channel.trySend_eq_some.mp hsend).2)
  · exact hf.push hnext (by simp)
  · refine ⟨hf.taken, fun rest hrest => ?_, fun he => ⟨rfl, (hf.ended he).2⟩⟩
    cases hrest with
    | exited => exact hf.emitted [] (.left hreturned)
    | left h => cases h
    | push h _ => cases h
  · have hqueue := Channel.recv_eq_some.mp hrecv
    refine ⟨?_, hf.emitted, fun he => ?_⟩
    · show c.items ++ [item] ++ engine.queue = _
      rw [← List.append_cons, ← hqueue, hf.taken]
    · have hempty := (hf.ended he).2
      rw [hqueue] at hempty
      cases hempty
  · exact ⟨hf.taken, hf.emitted, fun _ => ⟨hexited, hqueue⟩⟩

/-- A push finds fewer than 64 items that were not read. -/
def OnPace (c : ChatStream) (m : ChatMove) : Prop :=
  m = .push → c.pushed.length < c.items.length + ENGINE_BUFFER

def Taken (c : ChatStream) : Prop := ∀ q ∈ c.pushed, q.2 = true

theorem keptItems_of_taken {pushes : List (StreamItem × Bool)} (h : ∀ q ∈ pushes, q.2 = true) :
    (keptItems pushes).length = pushes.length := by
  induction pushes with
  | nil => rfl
  | cons q rest ih =>
    have hq := h q List.mem_cons_self
    have hrest := ih fun q hq => h q (List.mem_cons_of_mem _ hq)
    rw [keptItems, List.filterMap_cons, hq, if_pos rfl, List.length_cons, List.length_cons, ← hrest]
    rfl

theorem chatMoves_deterministic : Deterministic ChatStream.Moves := fun _ _ _ _ h₁ h₂ =>
  Option.some.inj (h₁.symm.trans h₂)

theorem Taken.room (hf : ChatFlow s c) (ht : Taken c) :
    c.items.length + c.engine.queue.length = c.pushed.length := by
  rw [← List.length_append, hf.taken, keptItems_of_taken ht]

theorem Taken.step (hf : ChatFlow s c) (ht : Taken c) (h : c.Moves m c') (hpace : OnPace c m) : Taken c' := by
  obtain ⟨rfl, item, answered, -, ⟨engine, -, rfl⟩ | ⟨hfull, rfl⟩⟩ | ⟨rfl, -, rfl⟩ | ⟨rfl, item, engine, -, rfl⟩ |
    ⟨rfl, -, -, rfl⟩ := chatMoves_cases h
  · exact allKept_snoc.mpr ⟨ht, rfl⟩
  · have hlen := Channel.trySend_eq_none.mp hfull
    have hroom := ht.room hf
    have hfree := hpace rfl
    omega
  · exact ht
  · exact ht
  · exact ht

theorem not_taken_step (h : c.Moves m c') (ht : ¬ Taken c) : ¬ Taken c' := by
  obtain ⟨rfl, item, answered, -, ⟨engine, -, rfl⟩ | ⟨-, rfl⟩⟩ | ⟨rfl, -, rfl⟩ | ⟨rfl, item, engine, -, rfl⟩ |
    ⟨rfl, -, -, rfl⟩ := chatMoves_cases h
  · exact fun h => ht (allKept_snoc.mp h).1
  · exact fun h => ht (allKept_snoc.mp h).1
  · exact ht
  · exact ht
  · exact ht

theorem not_taken_of_pace (hf : ChatFlow s c) (h : c.Moves m c') (hpace : ¬ OnPace c m) : ¬ Taken c' := by
  by_cases ht : Taken c
  · unfold OnPace at hpace
    push Not at hpace
    obtain ⟨rfl, hmany⟩ := hpace
    have hroom := ht.room hf
    obtain ⟨-, item, answered, -, ⟨engine, hsend, rfl⟩ | ⟨hfull, rfl⟩⟩ | ⟨h, -⟩ | ⟨h, -⟩ | ⟨h, -⟩ :=
      chatMoves_cases h
    · have hfree := (Channel.trySend_eq_some.mp hsend).1
      omega
    · intro hall
      cases (allKept_snoc.mp hall).2
    · cases h
    · cases h
    · cases h
  · exact not_taken_step h ht

/-- Every push of a run finds room exactly when the run keeps pace. -/
theorem taken_iff {moves : List ChatMove} (run : Steps ChatStream.Moves (.start s) moves c) :
    (Along ChatStream.Moves (.start s) OnPace moves ∧ Taken c) ∨
      (¬ Along ChatStream.Moves (.start s) OnPace moves ∧ ¬ Taken c) := by
  refine @Steps.clean_or_flawed _ _ _ _ _ _ OnPace (ChatFlow s) Taken (fun c => ¬ Taken c)
    chatMoves_deterministic ?_ ?_ ?_ ?_ ?_ run
  · intro past u hu
    exact hu.invariant (ChatFlow s) (chatFlow_start s) fun _ _ _ hf h => hf.step h
  · intro q hq
    cases hq
  · intro u l u' hf ht h hpace
    exact ht.step hf h hpace
  · intro u l u' hf h hpace
    exact not_taken_of_pace hf h hpace
  · intro u l u' _ ht h
    exact not_taken_step h ht

/-- A stream that was read to its end has the items that were pushed with room. -/
theorem ended_items {moves : List ChatMove} (run : Steps ChatStream.Moves (.start s) moves c)
    (hended : c.ended = true) : Emits (.running s) c.pushed ∧ c.items = keptItems c.pushed := by
  have hf := run.invariant (ChatFlow s) (chatFlow_start s) fun _ _ _ hf h => hf.step h
  obtain ⟨hexited, hqueue⟩ := hf.ended hended
  have hemits := hf.emitted [] (by rw [hexited]; exact .exited)
  have htaken := hf.taken
  rw [List.append_nil] at hemits
  rw [hqueue, List.append_nil] at htaken
  exact ⟨hemits, htaken⟩

end

/-! ## What a client reads -/

def chunkChoices (chunks : List ChatCompletionChunk) : List ChunkChoice := chunks.flatMap (·.choices)

/-- The contents, one after the other. -/
def joinedText (chunks : List ChatCompletionChunk) : String :=
  String.join ((chunkChoices chunks).filterMap (·.delta.content))

def finishes (chunks : List ChatCompletionChunk) : List String :=
  (chunkChoices chunks).filterMap (·.finishReason)

def roles (chunks : List ChatCompletionChunk) : List String := (chunkChoices chunks).filterMap (·.delta.role)

def errorNote (e : InferenceError) : String := "[error: " ++ e.toString ++ "]"

def itemText : StreamItem → String
  | .ok (.token t) => t.text
  | .ok (.stop _) => ""
  | .error e => errorNote e

def itemFinish : StreamItem → Option String
  | .ok (.token _) => none
  | .ok (.stop reason) => some (finishReason reason)
  | .error _ => some "stop"

section

variable (requestId model : String) (clock : Nat → U64)

theorem chatChunksFrom_cons (i : Nat) (first : Bool) (item : StreamItem) (items : List StreamItem) :
    chunkChoices (chatChunksFrom requestId model clock i first (item :: items)) = (chunkChoice first item).1 ::
      chunkChoices (chatChunksFrom requestId model clock (i + 1) (chunkChoice first item).2 items) := rfl

theorem joinedText_chunks (i : Nat) (first : Bool) (items : List StreamItem) :
    joinedText (chatChunksFrom requestId model clock i first items) = String.join (items.map itemText) := by
  induction items generalizing i first with
  | nil => rfl
  | cons item items ih =>
    have hrest := ih (i + 1) (chunkChoice first item).2
    unfold joinedText at hrest ⊢
    rw [chatChunksFrom_cons, List.map_cons, String.join_cons, ← hrest]
    cases item with
    | error e => exact String.join_cons
    | ok event =>
      cases event with
      | token t => exact String.join_cons
      | stop reason => exact (String.empty_append).symm

theorem finishes_chunks (i : Nat) (first : Bool) (items : List StreamItem) :
    finishes (chatChunksFrom requestId model clock i first items) = items.filterMap itemFinish := by
  induction items generalizing i first with
  | nil => rfl
  | cons item items ih =>
    have hrest := ih (i + 1) (chunkChoice first item).2
    unfold finishes at hrest ⊢
    rw [chatChunksFrom_cons, List.filterMap_cons, List.filterMap_cons, hrest]
    cases item with
    | error e => rfl
    | ok event =>
      cases event with
      | token t => rfl
      | stop reason => rfl

/-- Once the role was said it is not said again. -/
theorem no_role_after (i : Nat) (items : List StreamItem) :
    ∀ x ∈ chunkChoices (chatChunksFrom requestId model clock i false items), x.delta.role = none := by
  induction items generalizing i with
  | nil =>
    intro x hx
    cases hx
  | cons item items ih =>
    have hnext : (chunkChoice false item).2 = false := by
      cases item with
      | error e => rfl
      | ok event => cases event <;> rfl
    rw [chatChunksFrom_cons, hnext, List.forall_mem_cons]
    refine ⟨?_, ih (i + 1)⟩
    cases item with
    | error e => rfl
    | ok event => cases event <;> rfl

end

/-! ## What is collected -/

theorem mapM_ok (events : List InferenceEvent) :
    (events.map Except.ok : List StreamItem).mapM id = Except.ok events := by
  induction events with
  | nil => rfl
  | cons event events ih =>
    rw [List.map_cons, List.mapM_cons, ih]
    rfl

theorem mapM_error (events : List InferenceEvent) (e : InferenceError) :
    (events.map Except.ok ++ [.error e] : List StreamItem).mapM id = Except.error e := by
  induction events with
  | nil => rfl
  | cons event events ih =>
    rw [List.map_cons, List.cons_append, List.mapM_cons, ih]
    rfl

/-- Tokens are joined and counted. -/
theorem collect_tokens (ts : List TokenEvent) (c : Collected) (h : c.completionTokens.val + ts.length < 2 ^ 32) :
    ∃ n, n.val = c.completionTokens.val + ts.length ∧ (ts.map InferenceEvent.token).foldlM Collected.add c =
      .ok ⟨c.text ++ String.join (ts.map (·.text)), c.finish, n⟩ := by
  induction ts generalizing c with
  | nil => exact ⟨c.completionTokens, rfl, by simp [pure_eq_ok]⟩
  | cons t ts ih =>
    rw [List.length_cons] at h
    have hadd : add c.completionTokens 1 = .ok ⟨c.completionTokens.val + 1, by omega⟩ := add_eq_ok.mpr rfl
    obtain ⟨n, hn, hfold⟩ := ih ⟨c.text ++ t.text, c.finish, ⟨c.completionTokens.val + 1, by omega⟩⟩
      (by show c.completionTokens.val + 1 + ts.length < _; omega)
    refine ⟨n, by rw [hn, List.length_cons]; show c.completionTokens.val + 1 + _ = _; omega, ?_⟩
    rw [List.map_cons, List.foldlM_cons, Collected.add, hadd, ok_bind]
    rw [List.map_cons, String.join_cons, ← String.append_assoc]
    exact hfold

/-! ## The two answers -/

/-- What the chunks and the response say of the same items. -/
structure ChatAnswers (requestId model : String) (clock : Nat → U64) (created : U64)
    (items : List StreamItem) : Prop where
  roles : roles (chatChunks requestId model clock items) = if tokenTexts items = [] then [] else ["assistant"]
  onFirst : ∀ chunk ∈ (chatChunks requestId model clock items).tail, ∀ x ∈ chunk.choices, x.delta.role = none
  oneEnd : (finishes (chatChunks requestId model clock items)).length ≤ 1
  failed : ∀ e, .error e ∈ items →
    chatResponse requestId model created items = .ok (.error ⟨500, e.toString, "server_error"⟩) ∧
    joinedText (chatChunks requestId model clock items) = String.join (tokenTexts items) ++ errorNote e ∧
    finishes (chatChunks requestId model clock items) = ["stop"]
  collected : (∀ e, .error e ∉ items) → ∃ r, chatResponse requestId model created items = .ok (.ok r) ∧
    joinedText (chatChunks requestId model clock items) = String.join (tokenTexts items) ∧
    r.choices = [⟨0, ⟨"assistant", joinedText (chatChunks requestId model clock items)⟩,
      some ((finishes (chatChunks requestId model clock items)).headD "stop")⟩] ∧
    r.usage.completionTokens.val = (tokenTexts items).length

/-- After its tokens a stream has an end or none. -/
inductive StreamEnd : List StreamItem → Prop where
  | missing : StreamEnd []
  | stop (reason : StopReason) : StreamEnd [.ok (.stop reason)]
  | error (e : InferenceError) : StreamEnd [.error e]

section

variable (requestId model : String) (clock : Nat → U64) (created : U64) {ts : List TokenEvent}
  {last : List StreamItem}

theorem tokenItems_eq (ts : List TokenEvent) : tokenItems ts = (ts.map InferenceEvent.token).map .ok :=
  (List.map_map (l := ts)).symm

theorem tokenTexts_items (h : StreamEnd last) : tokenTexts (tokenItems ts ++ last) = ts.map (·.text) := by
  have hlast : tokenTexts last = [] := by cases h <;> rfl
  unfold tokenTexts at hlast ⊢
  rw [List.filterMap_append, hlast, List.append_nil, tokenItems, List.filterMap_map]
  exact congrFun List.filterMap_eq_map ts

theorem finishes_items (ts : List TokenEvent) (last : List StreamItem) :
    finishes (chatChunks requestId model clock (tokenItems ts ++ last)) = last.filterMap itemFinish := by
  have hnone : (tokenItems ts).filterMap itemFinish = [] := by
    rw [List.filterMap_eq_nil_iff]
    intro item hitem
    obtain ⟨t, -, rfl⟩ := List.mem_map.mp hitem
    rfl
  rw [chatChunks, finishes_chunks, List.filterMap_append, hnone, List.nil_append]

theorem joinedText_items (ts : List TokenEvent) (last : List StreamItem) :
    joinedText (chatChunks requestId model clock (tokenItems ts ++ last)) =
      String.join (ts.map (·.text)) ++ String.join (last.map itemText) := by
  rw [chatChunks, joinedText_chunks, List.map_append, String.join_append, tokenItems, List.map_map]
  rfl

theorem roles_items (h : StreamEnd last) :
    roles (chatChunks requestId model clock (tokenItems ts ++ last)) =
        (if ts = [] then [] else ["assistant"]) ∧
      ∀ chunk ∈ (chatChunks requestId model clock (tokenItems ts ++ last)).tail,
        ∀ x ∈ chunk.choices, x.delta.role = none := by
  cases ts with
  | nil =>
    refine ⟨by cases h <;> rfl, ?_⟩
    cases h <;> exact fun chunk hchunk => by cases hchunk
  | cons t ts =>
    have hafter := no_role_after requestId model clock 1 (tokenItems ts ++ last)
    refine ⟨?_, fun chunk hchunk x hx => hafter x (List.mem_flatMap.mpr ⟨chunk, hchunk, hx⟩)⟩
    rw [if_neg (List.cons_ne_nil _ _)]
    show "assistant" :: roles (chatChunksFrom requestId model clock 1 false (tokenItems ts ++ last)) = _
    have hnone : roles (chatChunksFrom requestId model clock 1 false (tokenItems ts ++ last)) = [] :=
      List.filterMap_eq_nil_iff.mpr hafter
    rw [hnone]

/-- The response of a stream without an error. -/
theorem chatResponse_ok {events : List InferenceEvent} {c : Collected}
    (h : events.foldlM Collected.add ⟨"", "stop", 0⟩ = .ok c) :
    chatResponse requestId model created (events.map .ok) = .ok (.ok ⟨requestId, "chat.completion", created,
      model, [⟨0, ⟨"assistant", c.text⟩, some c.finish⟩], ⟨0, c.completionTokens, c.completionTokens⟩⟩) := by
  rw [chatResponse, mapM_ok]
  simp only [h, ok_bind]
  rfl

theorem chatAnswers_of_items (hlast : StreamEnd last) (hlen : ts.length < 2 ^ 32) :
    ChatAnswers requestId model clock created (tokenItems ts ++ last) := by
  have htexts : tokenTexts (tokenItems ts ++ last) = ts.map (·.text) := tokenTexts_items hlast
  have hjoined := joinedText_items requestId model clock ts last
  have hfinishes := finishes_items requestId model clock ts last
  have hroles := @roles_items requestId model clock ts last hlast
  obtain ⟨n, hn, hfold⟩ := collect_tokens ts ⟨"", "stop", 0⟩ (by rw [Fin.val_zero, Nat.zero_add]; exact hlen)
  have hcount : n.val = (tokenTexts (tokenItems ts ++ last)).length := by
    rw [htexts, List.length_map, hn, Fin.val_zero, Nat.zero_add]
  rw [String.empty_append] at hfold
  refine ⟨?_, hroles.2, ?_, fun e he => ?_, fun hno => ?_⟩
  · rw [hroles.1, htexts]
    simp only [List.map_eq_nil_iff]
  · rw [hfinishes]
    cases hlast <;> simp [itemFinish]
  · rw [htexts, hjoined, hfinishes]
    have htoken : .error e ∉ tokenItems ts := fun h => by
      obtain ⟨t, -, ht⟩ := List.mem_map.mp h
      cases ht
    rcases List.mem_append.mp he with he | he
    · exact absurd he htoken
    cases hlast with
    | missing => cases he
    | stop reason =>
      cases List.mem_singleton.mp he
    | error e' =>
      cases List.mem_singleton.mp he
      have hnote : String.join ([.error e].map itemText) = errorNote e := String.empty_append
      refine ⟨?_, by rw [hnote], rfl⟩
      rw [chatResponse, tokenItems_eq, mapM_error]
      rfl
  · rw [← hcount, htexts, hjoined, hfinishes]
    cases hlast with
    | missing =>
      have hempty : String.join (ts.map (·.text)) ++ String.join (([] : List StreamItem).map itemText) =
          String.join (ts.map (·.text)) := String.append_empty
      rw [hempty, List.append_nil, tokenItems_eq]
      exact ⟨_, chatResponse_ok requestId model created hfold, rfl, rfl, rfl⟩
    | stop reason =>
      have hstopped : (ts.map InferenceEvent.token ++ [InferenceEvent.stop reason]).foldlM Collected.add ⟨"", "stop", 0⟩ =
          .ok ⟨String.join (ts.map (·.text)), finishReason reason, n⟩ := by
        rw [List.foldlM_append, hfold, ok_bind]
        cases reason <;> rfl
      have hempty : String.join (ts.map (·.text)) ++ String.join ([.ok (.stop reason)].map itemText) =
          String.join (ts.map (·.text)) := String.append_empty
      have hevents : tokenItems ts ++ [.ok (.stop reason)] =
          (ts.map InferenceEvent.token ++ [InferenceEvent.stop reason]).map .ok := by
        rw [List.map_append, tokenItems_eq]
        rfl
      rw [hempty, hevents]
      exact ⟨_, chatResponse_ok requestId model created hstopped, rfl, rfl, rfl⟩
    | error e => exact absurd (List.mem_append_right _ (List.mem_singleton.mpr rfl)) (hno e)

end

/-! ## The law -/

/-- What a request that is admitted runs. -/
theorem chatSession_ok {μ η σ : Type} {node : ChatNode μ η σ} {req : ChatCompletionRequest} {s : Exec Session}
    (h : chatSession node req = .ok s) : ∃ handle, s = Session.run
      (node.backend handle .serving (chatSampling req))
      ⟨chatPrompt req.messages, req.maxTokens, (req.stop.map StopCondition.intoVec).getD []⟩ := by
  unfold chatSession at h
  split at h
  · cases h
  split at h
  · cases h
  split at h
  · cases h
  split at h
  · cases h
  split at h
  · cases h
  split at h
  · cases h
  · rename_i handle hload
    exact ⟨handle, (Except.ok.inj h).symm⟩

theorem sampledTokens_length {σ : Type} (B : Backend σ) (n : Nat) (ctx : σ) :
    (sampledTokens B n ctx).length ≤ n := by
  induction n generalizing ctx with
  | zero => exact Nat.le_refl _
  | succ n ih =>
    rw [sampledTokens]
    dsimp only
    split_ifs with heos hcode
    · exact Nat.zero_le _
    · exact Nat.succ_le_succ (Nat.zero_le n)
    · exact Nat.succ_le_succ (ih _)

theorem tokenTexts_length (events : List InferenceEvent) (result : Except InferenceError SessionOutcome) :
    (tokenTexts (events.map .ok ++ failure result)).length = (tokenIds events).length := by
  induction events with
  | nil => cases result <;> rfl
  | cons event events ih =>
    cases event with
    | token t => exact congrArg (· + 1) ih
    | stop reason => exact ih

theorem IsLast.streamEnd {last : StreamItem} (h : IsLast last) : StreamEnd [last] := by
  cases last with
  | error e => exact .error e
  | ok event =>
    cases event with
    | token t => exact absurd h id
    | stop reason => exact .stop reason

/-- A session has as many tokens as were asked for at most. -/
theorem wholeStream_length {σ : Type} {B : Backend σ} {req : SessionRequest} {s : Session}
    (hrun : Session.run B req = .ok s) : (tokenTexts (wholeStream s)).length ≤ req.maxTokens.val := by
  rw [wholeStream, tokenTexts_length]
  obtain ⟨-, e, rfl⟩ | ⟨ctx, hctx, -⟩ := run_ingested hrun
  · exact Nat.zero_le _
  · have hstart := (run_played hrun hctx fun _ => true).sampled.length_le
    exact hstart.trans (sampledTokens_length B req.maxTokens.val ctx)

theorem keptItems_append (pushes more : List (StreamItem × Bool)) :
    keptItems (pushes ++ more) = keptItems pushes ++ keptItems more := List.filterMap_append

/-- The items that were read: all of the session's, or some of its tokens and possibly a cancellation. -/
theorem read_items {s : Session} (hs : Streams s) {pushes : List (StreamItem × Bool)}
    (hemits : Emits (.running s) pushes) : ∃ ts last, wholeStream s = tokenItems ts ++ [last] ∧ IsLast last ∧
    (((∀ q ∈ pushes, q.2 = true) ∧ keptItems pushes = wholeStream s) ∨
      ((∃ q ∈ pushes, q.2 = false) ∧ ∃ before rest, before <+: ts ∧
        (rest = [] ∨ rest = [.ok (.stop .cancelled)]) ∧ before.length + rest.length ≤ ts.length ∧
        keptItems pushes = tokenItems before ++ rest)) := by
  obtain ⟨ts, last, hwhole, hlast, hpushes⟩ := Streams.whole hs
  refine ⟨ts, last, hwhole, hlast, ?_⟩
  have hsent : ∀ before : List TokenEvent, keptItems (sent before) = tokenItems before := keptItems_sent
  obtain ⟨kept, rfl⟩ | ⟨before, t, kept, hstart, rfl⟩ := hpushes pushes hemits
  · cases kept with
    | true =>
      refine .inl ⟨allKept_snoc.mpr ⟨by simp [sent], rfl⟩, ?_⟩
      rw [keptItems_snoc, hsent, if_pos rfl, hwhole]
    | false =>
      refine .inr ⟨⟨(last, false), by simp, rfl⟩, ts, [], List.prefix_refl ts, .inl rfl, le_rfl, ?_⟩
      rw [keptItems_snoc, hsent, if_neg (by simp)]
  · have hle := hstart.length_le
    rw [List.length_append, List.length_singleton] at hle
    refine .inr ⟨⟨(.ok (.token t), false), by simp, rfl⟩, before,
      if kept then [.ok (.stop .cancelled)] else [], (List.prefix_append _ _).trans hstart, ?_⟩
    rw [keptItems_append, hsent]
    cases kept with
    | true => exact ⟨.inr rfl, hle, rfl⟩
    | false => exact ⟨.inl rfl, Nat.le_of_succ_le hle, rfl⟩

/-- A stream that ends with a cancellation or without an end is answered as one that stopped. -/
theorem cut_response (requestId model : String) (created : U64) {ts : List TokenEvent} {rest : List StreamItem}
    (hkind : rest = [] ∨ rest = [.ok (.stop .cancelled)]) (hlen : ts.length < 2 ^ 32) :
    ∃ r, chatResponse requestId model created (tokenItems ts ++ rest) = .ok (.ok r) ∧
      r.choices = [⟨0, ⟨"assistant", String.join (ts.map (·.text))⟩, some "stop"⟩] := by
  have hrest : StreamEnd rest := by
    rcases hkind with rfl | rfl
    · exact .missing
    · exact .stop .cancelled
  have hno : ∀ e, .error e ∉ tokenItems ts ++ rest := by
    intro e he
    rcases List.mem_append.mp he with he | he
    · obtain ⟨t, -, ht⟩ := List.mem_map.mp he
      cases ht
    · rcases hkind with rfl | rfl
      · cases he
      · cases List.mem_singleton.mp he
  have hanswers : ChatAnswers requestId model (fun _ => 0) created (tokenItems ts ++ rest) :=
    chatAnswers_of_items _ _ _ _ hrest hlen
  obtain ⟨r, hr, hjoined, hchoices, -⟩ := hanswers.collected hno
  refine ⟨r, hr, ?_⟩
  rw [hchoices, hjoined, tokenTexts_items hrest, finishes_items]
  rcases hkind with rfl | rfl <;> rfl

/-- For every request that is admitted and every schedule read to its end, the chunks and the response say
the same of the items that were read. These are the whole session exactly when the decoder kept pace with the
handler; otherwise they are some of its tokens, and the response is that of a complete stream. -/
theorem chat_modes_agree {μ η σ : Type} (node : ChatNode μ η σ) (req : ChatCompletionRequest) {s : Session}
    (hs : chatSession node req = .ok (.ok s)) {moves : List ChatMove} {c : ChatStream}
    (run : Steps ChatStream.Moves (.start s) moves c) (hended : c.ended = true) (requestId : String)
    (clock : Nat → U64) (created : U64) :
    ChatAnswers requestId req.model clock created c.items ∧
    (c.items = wholeStream s ↔ Along ChatStream.Moves (.start s) OnPace moves) ∧
    (c.items ≠ wholeStream s → ∃ ts rest r, tokenItems ts <+: wholeStream s ∧
      (rest = [] ∨ rest = [.ok (.stop .cancelled)]) ∧ c.items = tokenItems ts ++ rest ∧
      chatResponse requestId req.model created c.items = .ok (.ok r) ∧
      r.choices = [⟨0, ⟨"assistant", String.join (ts.map (·.text))⟩, some "stop"⟩]) := by
  obtain ⟨handle, hsession⟩ := chatSession_ok hs
  obtain ⟨hemits, hitems⟩ := ended_items run hended
  have hlength := wholeStream_length hsession.symm
  obtain ⟨ts, last, hwhole, hlast, hread⟩ := read_items (run_streams hsession.symm) hemits
  rw [← hitems] at hread
  rw [hwhole, tokenTexts_items hlast.streamEnd, List.length_map] at hlength
  have hfits : ∀ before : List TokenEvent, before <+: ts → before.length < 2 ^ 32 := fun before h =>
    (h.length_le.trans hlength).trans_lt req.maxTokens.isLt
  have hpace := taken_iff run
  obtain ⟨hall, hequal⟩ | ⟨⟨q, hq, hrefused⟩, before, rest, hstart, hkind, hfewer, hcut⟩ := hread
  · refine ⟨?_, iff_of_true hequal ?_, fun hne => absurd hequal hne⟩
    · rw [hequal, hwhole]
      exact chatAnswers_of_items _ _ _ _ hlast.streamEnd (hfits ts (List.prefix_refl ts))
    · exact hpace.elim (·.1) fun h => absurd hall h.2
  · have hnot : ¬ Taken c := fun h => Bool.false_ne_true (hrefused.symm.trans (h q hq))
    have hoff : ¬ Along ChatStream.Moves (.start s) OnPace moves := hpace.elim (fun h => absurd h.2 hnot) (·.1)
    have hshort : c.items ≠ wholeStream s := by
      intro heq
      have hlen := congrArg List.length (heq.symm.trans hcut)
      simp only [hwhole, tokenItems, List.length_append, List.length_map, List.length_singleton] at hlen
      omega
    have hend : StreamEnd rest := by
      rcases hkind with rfl | rfl
      · exact .missing
      · exact .stop .cancelled
    obtain ⟨r, hr, hchoices⟩ := cut_response requestId req.model created
      hkind (hfits before hstart)
    refine ⟨?_, iff_of_false hshort hoff, fun _ => ⟨before, rest, r, ?_, hkind, hcut, by rw [hcut, hr], hchoices⟩⟩
    · rw [hcut]
      exact chatAnswers_of_items _ _ _ _ hend (hfits before hstart)
    · rw [hwhole]
      exact (hstart.map _).trans (List.prefix_append _ _)

def hiNode : ChatNode Unit Unit Unit where
  teeEnabled := false
  manifestFor _ := some ()
  runtime _ _ := .ok fun _ => .ok ()
  backend _ _ _ := hiBackend

def hiChat : ChatCompletionRequest := ⟨"o/m-F16", [⟨"user", "hello"⟩], 1, 1.0, 1.0, false, none, false⟩

def hiChatSession : Session := generate hiBackend ⟨"user: hello", 1, []⟩ [0] () ⟨[], .new, ""⟩

theorem hiChat_session : chatSession hiNode hiChat = .ok (.ok hiChatSession) := rfl

theorem hiChat_play : (([.push, .read, .push, .read, .exit, .finish].foldlM ChatStream.step
    (ChatStream.start hiChatSession)).any fun c => c.ended && c.items.length == 2) = true := by
  decide

theorem chat_modes_agree_hi : ∃ c : ChatStream, c.items.length = 2 ∧
    ChatAnswers "id" "o/m-F16" (fun _ => 0) 0 c.items := by
  obtain ⟨c, hplay, hend⟩ := (Option.any_eq_true _ _).mp hiChat_play
  rw [Bool.and_eq_true, beq_iff_eq] at hend
  exact ⟨c, hend.2, (chat_modes_agree hiNode hiChat hiChat_session (steps_of_foldlM hplay) hend.1 "id"
    (fun _ => 0) 0).1⟩

end Arknet.Laws
