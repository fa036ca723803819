import Arknet.Laws.Pieces
import Arknet.Laws.Streaming

/-!
The text of a session: what it streams token by token, what it returns, and where a stop string ends it.
-/

namespace Arknet.Laws

open Machine Arknet.Inference

/-! ## Playing a session -/

/-- The events of a session whose sink gives these answers, one after the other, and its result. -/
def Session.play : Session → (Nat → Bool) → List InferenceEvent × Except InferenceError SessionOutcome
  | .push event answered, answers =>
    let out := Session.play (answered (answers 0)) (fun i => answers (i + 1))
    (event :: out.1, out.2)
  | .done result, _ => ([], result)

/-- The tokens that were streamed. -/
def tokenIds (events : List InferenceEvent) : List Token :=
  events.filterMap fun
    | .token t => some t.tokenId
    | .stop _ => none

/-- Their texts, one after the other. -/
def streamedText : List InferenceEvent → String
  | [] => ""
  | .token t :: rest => t.text ++ streamedText rest
  | .stop _ :: rest => streamedText rest

section

variable {σ : Type} (B : Backend σ)

/-- The output that is decoded after these tokens. -/
def decoded (tokens : List Token) : String := (feedAll (tokens.map B.tokenToPiece)).1

/-- The context with the prompt in it, where a session gets that far. -/
def ingested (req : SessionRequest) : Option σ :=
  match B.start, B.encode req.prompt with
  | .ok ctx, .ok promptTokens =>
    if promptTokens = [] ∨ B.nCtx.val < promptTokens.length % 2 ^ 32 + req.maxTokens.val then none
    else if (B.decode ctx promptTokens).1 ≠ 0 then none
    else some (B.decode ctx promptTokens).2
  | _, _ => none

/-- The tokens of as many rounds, as long as there are any and each can be fed back. -/
def sampledTokens : Nat → σ → List Token
  | 0, _ => []
  | n + 1, ctx =>
    let (token, ctx) := B.sample ctx
    if 0 ≤ B.eos ∧ token = B.eos then []
    else
      let (code, ctx) := B.decode ctx [token]
      token :: if code ≠ 0 then [] else sampledTokens n ctx

/-- The output ends with one of the stop strings. -/
def EndsStopped (stop : List String) (text : String) : Prop := ∃ s ∈ stop, utf8 s <:+ utf8 text

/-- One of the stop strings is somewhere in the output. -/
def HasStop (stop : List String) (text : String) : Prop := ∃ s ∈ stop, utf8 s <:+: utf8 text

instance (stop : List String) (text : String) : Decidable (EndsStopped stop text) :=
  inferInstanceAs (Decidable (∃ s ∈ stop, _))

/-- Of the tokens that come next, those up to the first after which the output ends with a stop string. -/
def untilStop (stop : List String) : List Token → List Token → List Token
  | _, [] => []
  | before, token :: rest =>
    token :: if EndsStopped stop (decoded B (before ++ [token])) then []
      else untilStop stop (before ++ [token]) rest

/-- The state of the loop after these tokens. -/
def Generated.after (tokens : List Token) : Generated :=
  ⟨tokens, (feedAll (tokens.map B.tokenToPiece)).2, decoded B tokens⟩

end

/-! ## One round -/

section

variable {σ : Type} {B : Backend σ} {req : SessionRequest}

/-- The text of a token that comes next. -/
def fragment (B : Backend σ) (before : List Token) (token : Token) : String :=
  ((feedAll (before.map B.tokenToPiece)).2.feed (B.tokenToPiece token)).1

theorem decoded_snoc (before : List Token) (token : Token) :
    decoded B (before ++ [token]) = decoded B before ++ fragment B before token := by
  rw [decoded, List.map_append, List.map_singleton, feedAll_snoc]
  rfl

theorem after_snoc (before : List Token) (token : Token) :
    Generated.after B (before ++ [token]) = ⟨before ++ [token],
      ((feedAll (before.map B.tokenToPiece)).2.feed (B.tokenToPiece token)).2,
      decoded B before ++ fragment B before token⟩ := by
  rw [Generated.after, decoded_snoc, List.map_append, List.map_singleton, feedAll_snoc]

/-- The end of a session whose output ends with a stop string, or where it goes on. -/
theorem generate_step (index : U32) (rest : List U32) (ctx : σ) (before : List Token) :
    generate B req (index :: rest) ctx (Generated.after B before) =
      let (token, next) := B.sample ctx
      if 0 ≤ B.eos ∧ token = B.eos then .stop ((Generated.after B before).outcome .endOfStream)
      else
        match req.stop.find? (fun s => (utf8 s).isSuffixOf (utf8 (decoded B (before ++ [token])))) with
        | some s => .push (.token ⟨index, token, fragment B before token⟩) (fun kept =>
            .stop ((Generated.after B (before ++ [token])).outcome (if kept then .stopString s else .cancelled)))
        | none => .push (.token ⟨index, token, fragment B before token⟩) (fun kept =>
            if kept then
              if (B.decode next [token]).1 ≠ 0 then .done (.error (.decode (B.decode next [token]).1))
              else generate B req rest (B.decode next [token]).2 (Generated.after B (before ++ [token]))
            else .stop ((Generated.after B (before ++ [token])).outcome .cancelled)) := by
  simp only [after_snoc, decoded_snoc]
  rfl

theorem find_stop_some {stop : List String} {text s : String}
    (h : stop.find? (fun s => (utf8 s).isSuffixOf (utf8 text)) = some s) : s ∈ stop ∧ utf8 s <:+ utf8 text :=
  ⟨List.mem_of_find?_eq_some h, List.isSuffixOf_iff_suffix.mp
    (List.find?_some (p := fun s => (utf8 s).isSuffixOf (utf8 text)) h)⟩

theorem find_stop_none {stop : List String} {text : String}
    (h : stop.find? (fun s => (utf8 s).isSuffixOf (utf8 text)) = none) : ¬ EndsStopped stop text := by
  rintro ⟨s, hs, hends⟩
  exact List.find?_eq_none.mp h s hs (List.isSuffixOf_iff_suffix.mpr hends)

/-! ## All rounds -/

/-- What a session streams and returns from here on. -/
structure Played (B : Backend σ) (req : SessionRequest) (before toks : List Token) (answers : Nat → Bool)
    (out : List InferenceEvent × Except InferenceError SessionOutcome) : Prop where
  sampled : tokenIds out.1 <+: toks
  streamed : decoded B before ++ streamedText out.1 = decoded B (before ++ tokenIds out.1)
  unstopped : ∀ k, 0 < k → k < (tokenIds out.1).length →
    ¬ EndsStopped req.stop (decoded B (before ++ (tokenIds out.1).take k))
  outcome : ∀ o, out.2 = .ok o → ∃ reason, o = (Generated.after B (before ++ tokenIds out.1)).outcome reason
  reported : ∀ o s, out.2 = .ok o → o.reason = .stopString s →
    s ∈ req.stop ∧ utf8 s <:+ utf8 (decoded B (before ++ tokenIds out.1))
  accepted : (∀ i, answers i = true) → tokenIds out.1 = untilStop B req.stop before toks

/-- A session that stops before the next token. -/
theorem Played.ended {before : List Token} {answers : Nat → Bool} {reason : StopReason}
    (h : ∀ s, reason = .stopString s → s ∈ req.stop ∧ utf8 s <:+ utf8 (decoded B before)) :
    Played B req before [] answers
      (Session.play (.stop ((Generated.after B before).outcome reason)) answers) where
  sampled := List.nil_prefix
  streamed := by
    change decoded B before ++ "" = decoded B (before ++ [])
    rw [String.append_empty, List.append_nil]
  unstopped k hk hlt := absurd hlt (Nat.not_lt_zero k)
  outcome o ho := by
    cases ho
    exact ⟨reason, congrArg (fun l => (Generated.after B l).outcome reason) (List.append_nil before).symm⟩
  reported o s ho hs := by
    cases ho
    exact (List.append_nil before).symm ▸ h s hs
  accepted _ := rfl

/-- A session that fails before the next token. -/
theorem Played.failed {before : List Token} {answers : Nat → Bool} (e : InferenceError) :
    Played B req before [] answers ([], .error e) where
  sampled := List.nil_prefix
  streamed := by
    change decoded B before ++ "" = decoded B (before ++ [])
    rw [String.append_empty, List.append_nil]
  unstopped k hk hlt := absurd hlt (Nat.not_lt_zero k)
  outcome o ho := by cases ho
  reported o s ho := by cases ho
  accepted _ := rfl

/-- One token more in front. -/
theorem Played.cons {index : U32} {before toks rest : List Token} {token : Token} {answers answers' : Nat → Bool}
    {out : List InferenceEvent × Except InferenceError SessionOutcome}
    (h : Played B req (before ++ [token]) toks answers' out) (hrest : toks <+: rest)
    (hgoes : tokenIds out.1 ≠ [] → ¬ EndsStopped req.stop (decoded B (before ++ [token])))
    (haccepted : (∀ i, answers i = true) → tokenIds out.1 =
      if EndsStopped req.stop (decoded B (before ++ [token])) then []
      else untilStop B req.stop (before ++ [token]) rest) :
    Played B req before (token :: rest) answers
      (.token ⟨index, token, fragment B before token⟩ :: out.1, out.2) := by
  have hids : tokenIds (.token ⟨index, token, fragment B before token⟩ :: out.1) = token :: tokenIds out.1 := rfl
  have happend : ∀ l, before ++ token :: l = before ++ [token] ++ l := by simp
  constructor
  · rw [hids]
    exact List.cons_prefix_cons.mpr ⟨rfl, h.sampled.trans hrest⟩
  · rw [hids, happend, ← h.streamed, decoded_snoc, String.append_assoc]
    rfl
  · intro k hk hlt
    rw [hids] at hlt ⊢
    rw [List.length_cons] at hlt
    obtain ⟨j, rfl⟩ := Nat.exists_eq_add_one_of_ne_zero hk.ne'
    rw [List.take_succ_cons, happend]
    by_cases hj : j = 0
    · subst hj
      rw [List.take_zero, List.append_nil]
      exact hgoes (List.ne_nil_of_length_pos (by omega))
    · exact h.unstopped j (by omega) (by omega)
  · intro o ho
    rw [hids, happend]
    exact h.outcome o ho
  · intro o s ho hs
    rw [hids, happend]
    exact h.reported o s ho hs
  · intro hall
    rw [hids, haccepted hall, untilStop]

theorem generate_played (indices : List U32) (ctx : σ) (before : List Token) (answers : Nat → Bool) :
    Played B req before (sampledTokens B indices.length ctx) answers
      (Session.play (generate B req indices ctx (Generated.after B before)) answers) := by
  induction indices generalizing ctx before answers with
  | nil => exact .ended (fun s h => by cases h)
  | cons index rest ih =>
    rw [generate_step, List.length_cons, sampledTokens]
    obtain ⟨token, next⟩ := B.sample ctx
    dsimp only
    by_cases heos : 0 ≤ B.eos ∧ token = B.eos
    · rw [if_pos heos, if_pos heos]
      exact .ended (fun s h => by cases h)
    · rw [if_neg heos, if_neg heos]
      cases hfound : req.stop.find? (fun s => (utf8 s).isSuffixOf (utf8 (decoded B (before ++ [token])))) with
      | some s =>
        obtain ⟨hmem, hends⟩ := find_stop_some hfound
        have hend : Played B req (before ++ [token]) [] (fun i => answers (i + 1))
            (Session.play (.stop ((Generated.after B (before ++ [token])).outcome
              (if answers 0 then .stopString s else .cancelled))) (fun i => answers (i + 1))) := by
          refine .ended (fun t ht => ?_)
          split at ht
          · cases ht
            exact ⟨hmem, hends⟩
          · cases ht
        have hstopped : EndsStopped req.stop (decoded B (before ++ [token])) := ⟨s, hmem, hends⟩
        exact hend.cons List.nil_prefix (fun h => absurd rfl h) (fun _ => (if_pos hstopped).symm)
      | none =>
        have hgoes := find_stop_none hfound
        dsimp only [Session.play]
        cases hkept : answers 0 with
        | false =>
          have hend : Played B req (before ++ [token]) [] (fun i => answers (i + 1))
              (Session.play (.stop ((Generated.after B (before ++ [token])).outcome .cancelled))
                (fun i => answers (i + 1))) := .ended (fun t ht => by cases ht)
          refine hend.cons List.nil_prefix (fun h => absurd rfl h) (fun hall => ?_)
          rw [hall 0] at hkept
          cases hkept
        | true =>
          rw [if_pos rfl]
          by_cases hcode : (B.decode next [token]).1 ≠ 0
          · rw [if_pos hcode, if_pos hcode]
            have hend : Played B req (before ++ [token]) [] (fun i => answers (i + 1))
                (Session.play (.done (.error (.decode (B.decode next [token]).1))) (fun i => answers (i + 1))) :=
              .failed _
            refine hend.cons List.nil_prefix (fun h => absurd rfl h) (fun _ => ?_)
            rw [if_neg hgoes]
            rfl
          · rw [if_neg hcode, if_neg hcode]
            have hrest := ih (B.decode next [token]).2 (before ++ [token]) (fun i => answers (i + 1))
            refine hrest.cons (List.prefix_refl _) (fun _ => hgoes) (fun hall => ?_)
            rw [if_neg hgoes]
            exact hrest.accepted fun i => hall (i + 1)

/-- A session that was begun has failed, or it generates from the context with the prompt in it. -/
theorem run_ingested {s : Session} (h : Session.run B req = .ok s) :
    (ingested B req = none ∧ ∃ e, s = .done (.error e)) ∨
      ∃ ctx, ingested B req = some ctx ∧
        s = generate B req ((List.range req.maxTokens.val).map (truncate 32)) ctx (Generated.after B []) := by
  unfold Session.run at h
  unfold ingested
  cases hstart : B.start with
  | error e =>
    rw [hstart] at h
    cases h
    exact .inl ⟨rfl, e, rfl⟩
  | ok ctx =>
    cases hencode : B.encode req.prompt with
    | error e =>
      rw [hstart, hencode] at h
      cases h
      exact .inl ⟨rfl, e, rfl⟩
    | ok promptTokens =>
      rw [hstart, hencode] at h
      dsimp only at h ⊢
      by_cases hnil : promptTokens = []
      · rw [if_pos hnil] at h
        cases h
        exact .inl ⟨if_pos (.inl hnil), _, rfl⟩
      · rw [if_neg hnil] at h
        obtain ⟨needed, hneeded, h⟩ := bind_eq_ok.mp h
        have hval : needed.val = promptTokens.length % 2 ^ 32 + req.maxTokens.val := add_eq_ok.mp hneeded
        by_cases hlong : B.nCtx < needed
        · rw [if_pos hlong] at h
          cases h
          exact .inl ⟨if_pos (.inr (by rw [← hval]; exact hlong)), _, rfl⟩
        · rw [if_neg hlong] at h
          have hgoes : ¬ (promptTokens = [] ∨
              B.nCtx.val < promptTokens.length % 2 ^ 32 + req.maxTokens.val) := by
            rintro (h | h)
            · exact hnil h
            · exact hlong (by rw [Fin.lt_def, hval]; exact h)
          rw [if_neg hgoes]
          by_cases hcode : (B.decode ctx promptTokens).1 ≠ 0
          · rw [if_pos hcode] at h
            cases h
            exact .inl ⟨if_pos hcode, _, rfl⟩
          · rw [if_neg hcode] at h
            cases h
            exact .inr ⟨_, if_neg hcode, rfl⟩

theorem run_played {s : Session} (h : Session.run B req = .ok s) {ctx : σ} (hctx : ingested B req = some ctx)
    (answers : Nat → Bool) :
    Played B req [] (sampledTokens B req.maxTokens.val ctx) answers (Session.play s answers) := by
  obtain ⟨hnone, -⟩ | ⟨ctx', hctx', rfl⟩ := run_ingested h
  · rw [hnone] at hctx
    cases hctx
  · rw [hctx] at hctx'
    obtain rfl := Option.some.inj hctx'
    have hplayed : Played B req [] _ answers _ :=
      generate_played ((List.range req.maxTokens.val).map (truncate 32)) ctx [] answers
    rw [List.length_map, List.length_range] at hplayed
    exact hplayed

end

/-! ## The streamed text -/

/-- Over an accepting sink the texts of a session's tokens are the text it returns exactly when the bytes of
the tokens that it generates are whole characters. -/
theorem text_streamed {σ : Type} (B : Backend σ) (req : SessionRequest) (s : Session)
    (outcome : SessionOutcome) (hrun : Session.run B req = .ok s)
    (hdone : (Session.play s (fun _ => true)).2 = .ok outcome) :
    streamedText (Session.play s (fun _ => true)).1 = outcome.text ↔
      ∀ ctx ∈ ingested B req,
        Utf8.Valid ((untilStop B req.stop [] (sampledTokens B req.maxTokens.val ctx)).flatMap
          B.tokenToPiece) := by
  obtain ⟨-, e, rfl⟩ | ⟨ctx, hctx, -⟩ := run_ingested hrun
  · cases hdone
  · have hplayed := run_played hrun hctx (fun _ => true)
    have hids := hplayed.accepted (fun _ => rfl)
    have hstreamed := hplayed.streamed
    obtain ⟨reason, rfl⟩ := hplayed.outcome _ hdone
    simp only [hctx, Option.mem_some_iff, forall_eq']
    rw [hids, List.nil_append] at hstreamed
    rw [hids, List.nil_append]
    generalize untilStop B req.stop [] (sampledTokens B req.maxTokens.val ctx) = ids at hstreamed ⊢
    rw [show decoded B [] = "" from rfl, String.empty_append] at hstreamed
    have hsplit := feedAll_split (ids.map B.tokenToPiece)
    have htext : ((Generated.after B ids).outcome reason).text =
        decoded B ids ++ (feedAll (ids.map B.tokenToPiece)).2.flush.1 := rfl
    rw [hstreamed, htext, List.flatMap_def, ← pending_eq_nil hsplit, ← flush_eq_empty]
    constructor
    · intro h
      exact (String.append_right_inj (decoded B ids)).mp ((String.append_empty).trans h) |>.symm
    · intro h
      rw [h, String.append_empty]

set_option maxRecDepth 4000 in
theorem text_streamed_hi : streamedText (Session.play (hiSession 1) (fun _ => true)).1 = "hi" :=
  (text_streamed hiBackend (hiRequest 1) (hiSession 1) ⟨[7], "hi", .maxTokens⟩ (hiSession_run (by decide))
    (by decide)).mpr (by
      rintro ⟨⟩ -
      exact ⟨['h', 'i'], by decide⟩)

/-- A model that samples one and the same token. -/
def pieceBackend (piece : List UInt8) : Backend Unit := { hiBackend with tokenToPiece := fun _ => piece }

set_option maxRecDepth 4000 in
/-- The token is the first byte of a character: it is in the text, but was never streamed. -/
theorem tail_not_streamed : ∃ s outcome, Session.run (pieceBackend [0xC3]) (hiRequest 1) = .ok s ∧
    (Session.play s (fun _ => true)).2 = .ok outcome ∧
    streamedText (Session.play s (fun _ => true)).1 ≠ outcome.text :=
  ⟨generate (pieceBackend [0xC3]) (hiRequest 1) [0] () ⟨[], .new, ""⟩, ⟨[7], "\uFFFD", .maxTokens⟩, rfl,
    by decide, by decide⟩

/-! ## Stop strings -/

/-- A session ends with the first token after which one of the stop strings is somewhere in its output, and
the stop string that it reports is in its text. -/
structure StopsRight {σ : Type} (B : Backend σ) (stop : List String)
    (out : List InferenceEvent × Except InferenceError SessionOutcome) : Prop where
  halted : ∀ k, 0 < k → k < (tokenIds out.1).length → ¬ HasStop stop (decoded B ((tokenIds out.1).take k))
  reported : ∀ o s, out.2 = .ok o → o.reason = .stopString s → s ∈ stop ∧ utf8 s <:+: utf8 o.text

/-- The first token of these that brings a stop string into the output, if it is not the last one, has the
output end with a stop string. -/
def StopsAligned {σ : Type} (B : Backend σ) (stop : List String) (toks : List Token) : Prop :=
  ∀ k, 0 < k → k < toks.length → HasStop stop (decoded B (toks.take k)) →
    (∀ j, 0 < j → j < k → ¬ HasStop stop (decoded B (toks.take j))) → EndsStopped stop (decoded B (toks.take k))

theorem EndsStopped.hasStop {stop : List String} {text : String} (h : EndsStopped stop text) :
    HasStop stop text :=
  h.imp fun _ hs => ⟨hs.1, hs.2.isInfix⟩

section

variable {σ : Type} {B : Backend σ} {stop : List String}

theorem lt_untilStop_length {before toks : List Token} {k : Nat} (hk : k < toks.length)
    (h : ∀ j, 0 < j → j ≤ k → ¬ EndsStopped stop (decoded B (before ++ toks.take j))) :
    k < (untilStop B stop before toks).length := by
  induction toks generalizing before k with
  | nil => exact absurd hk (Nat.not_lt_zero k)
  | cons token rest ih =>
    rw [untilStop, List.length_cons]
    cases k with
    | zero => exact Nat.succ_pos _
    | succ k =>
      have hfirst := h 1 Nat.one_pos (by omega)
      rw [List.take_succ_cons, List.take_zero] at hfirst
      rw [if_neg hfirst]
      refine Nat.succ_lt_succ (ih (Nat.lt_of_succ_lt_succ hk) fun j hj hjk => ?_)
      have hnext := h (j + 1) j.succ_pos (by omega)
      rwa [List.take_succ_cons, ← List.singleton_append, ← List.append_assoc] at hnext

theorem take_eq_take {ids toks : List Token} (h : ids <+: toks) {k : Nat} (hk : k ≤ ids.length) :
    ids.take k = toks.take k := by
  obtain ⟨rest, rfl⟩ := h
  exact (List.take_append_of_le_length hk).symm

/-- The sessions of a request, whatever its sink answers, stop where they should if the first appearance of a
stop string is at the end of the output. -/
theorem Played.stopsRight {req : SessionRequest} {toks : List Token} {answers : Nat → Bool}
    {out : List InferenceEvent × Except InferenceError SessionOutcome} (h : Played B req [] toks answers out)
    (haligned : StopsAligned B req.stop toks) : StopsRight B req.stop out where
  halted k hk hlt := by
    -- the least such number of tokens
    induction k using Nat.strong_induction_on with
    | _ k ih =>
      intro hhas
      have htake : ∀ j ≤ k, (tokenIds out.1).take j = toks.take j :=
        fun j hj => take_eq_take h.sampled (by omega)
      refine h.unstopped k hk hlt ?_
      rw [List.nil_append, htake k le_rfl]
      refine haligned k hk (hlt.trans_le h.sampled.length_le) (htake k le_rfl ▸ hhas) fun j hj hjk => ?_
      exact htake j hjk.le ▸ ih j hjk hj (hjk.trans hlt)
  reported o s ho hs := by
    obtain ⟨hmem, hends⟩ := h.reported o s ho hs
    obtain ⟨reason, rfl⟩ := h.outcome o ho
    refine ⟨hmem, hends.isInfix.trans ?_⟩
    rw [Generated.outcome, utf8_append]
    exact List.infix_append' [] _ _

theorem Played.stopsAligned {req : SessionRequest} {toks : List Token}
    {out : List InferenceEvent × Except InferenceError SessionOutcome}
    (h : Played B req [] toks (fun _ => true) out) (hright : StopsRight B req.stop out) :
    StopsAligned B req.stop toks := by
  intro k hk hlt hhas hfirst
  by_contra hends
  have hids := h.accepted (fun _ => rfl)
  have hlong : k < (tokenIds out.1).length := by
    rw [hids]
    refine lt_untilStop_length hlt fun j hj hjk => ?_
    rw [List.nil_append]
    obtain rfl | hjk := hjk.eq_or_lt
    · exact hends
    · exact fun hj' => hfirst j hj hjk hj'.hasStop
  refine hright.halted k hk hlong ?_
  rwa [take_eq_take h.sampled hlong.le]

end

/-- Every session of a request, whatever its sink answers, ends with the first token that brings a stop string
into the output exactly when that token has the output end with a stop string. -/
theorem stop_strings_stop {σ : Type} (B : Backend σ) (req : SessionRequest) (s : Session)
    (hrun : Session.run B req = .ok s) :
    (∀ answers, StopsRight B req.stop (Session.play s answers)) ↔
      ∀ ctx ∈ ingested B req, StopsAligned B req.stop (sampledTokens B req.maxTokens.val ctx) := by
  constructor
  · intro h ctx hctx
    exact (run_played hrun hctx _).stopsAligned (h _)
  · intro h answers
    obtain ⟨-, e, rfl⟩ | ⟨ctx, hctx, -⟩ := run_ingested hrun
    · exact ⟨fun k _ hlt => absurd hlt (Nat.not_lt_zero k), fun o s ho => by cases ho⟩
    · exact (run_played hrun hctx answers).stopsRight (h ctx hctx)

def twoRequest (stop : List String) : SessionRequest := ⟨"hello", 2, stop⟩

def twoSession (piece : List UInt8) (stop : List String) : Session :=
  generate (pieceBackend piece) (twoRequest stop) [0, 1] () ⟨[], .new, ""⟩

theorem twoSession_run (piece : List UInt8) (stop : List String) :
    Session.run (pieceBackend piece) (twoRequest stop) = .ok (twoSession piece stop) := rfl

set_option maxRecDepth 4000 in
theorem stop_strings_stop_hi :
    StopsRight (pieceBackend [104, 105]) ["hi"]
      (Session.play (twoSession [104, 105] ["hi"]) (fun _ => true)) := by
  refine (stop_strings_stop _ (twoRequest ["hi"]) _ (twoSession_run [104, 105] ["hi"])).mpr ?_ _
  rintro ⟨⟩ - k hk hlt hhas hfirst
  obtain rfl : k = 1 := by
    change k < 2 at hlt
    omega
  decide

set_option maxRecDepth 4000 in
/-- The first token goes past the stop string, and a second one is generated. -/
theorem stop_string_passed : ∃ s, Session.run (pieceBackend [97, 98]) (twoRequest ["a"]) = .ok s ∧
    ¬ StopsRight (pieceBackend [97, 98]) ["a"] (Session.play s (fun _ => true)) := by
  refine ⟨_, twoSession_run [97, 98] ["a"], fun h => h.halted 1 Nat.one_pos (by decide) ?_⟩
  exact ⟨"a", List.mem_singleton.mpr rfl, [], [98], by decide⟩

end Arknet.Laws
