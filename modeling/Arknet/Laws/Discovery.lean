import Arknet.Node.Discovery

/-!
What the two listeners know of a peer is its last offer, whoever sent it. Both look the same offers up for
a model, each in an order of its own.
-/

namespace Arknet.Laws

open Machine Store Selection Arknet.Chain Arknet.Compute Arknet.Router Arknet.Node

/-- What the listener of the SDK hears before it ends. -/
def heardBySdk (events : List Heard) : List Heard := events.takeWhile fun e => e ≠ .shutdown ∧ e ≠ .closed

/-- What the listener of the router hears before it ends. -/
def heardByRouter (events : List Heard) : List Heard := events.takeWhile (· ≠ .shutdown)

/-- The last offer of a peer. -/
def lastOffer (heard : List Heard) (peer : List UInt8) : Option PoolOffer :=
  Latest.last PoolOffer.peerId (heard.filterMap Heard.offer) peer

/-- An offer that counts for a model. -/
def Open (model : String) (nowMs : Timestamp) (offer : PoolOffer) : Prop :=
  model ∈ offer.modelRefs ∧ satSub nowMs offer.timestampMs ≤ 300000

/-! ## The SDK -/

/-- One event that does not end the listener. -/
theorem sdkListen_cons {e : Heard} (he : e ≠ .shutdown ∧ e ≠ .closed) (t : CandidateTable) (rest : List Heard) :
    sdkListen t (e :: rest) =
      sdkListen (e.offer.elim t fun offer => t.upsert (.ofOffer offer)) rest := by
  cases e with
  | gossipMessage topic data =>
    by_cases htopic : topic = poolOffer
    · cases hoffer : PoolOffer.codec.fromSlice data <;> simp [sdkListen, Heard.offer, htopic, hoffer]
    · simp [sdkListen, Heard.offer, htopic]
  | peerConnected => rfl
  | peerDisconnected => rfl
  | lagged missed => rfl
  | closed => exact absurd rfl he.2
  | shutdown => exact absurd rfl he.1

/-- The table of the SDK is filled by the offers it heard. -/
theorem sdkListen_fill (events : List Heard) (t : CandidateTable) :
    (sdkListen t events).inner = Latest.fill CandidateEntry.peerIdBytes t.inner
      (((heardBySdk events).filterMap Heard.offer).map .ofOffer) := by
  induction events generalizing t with
  | nil => rfl
  | cons e rest ih =>
    by_cases he : e ≠ .shutdown ∧ e ≠ .closed
    · have hheard : heardBySdk (e :: rest) = e :: heardBySdk rest := by simp [heardBySdk, he]
      rw [sdkListen_cons he, ih, hheard]
      cases hoffer : e.offer <;> simp [hoffer, Latest.fill, CandidateTable.upsert]
    · have hheard : heardBySdk (e :: rest) = [] := by simp [heardBySdk, he]
      rw [hheard]
      cases e <;> simp at he <;> rfl

/-! ## The router -/

section

variable {ρ π : Type} (K : Primitives) (peerIdFromBytes : List UInt8 → Option π)
  (remoteDispatcher : π → ρ → Outcome EventStream)

theorem routerListen_cons {e : Heard} (he : e ≠ .shutdown) (inner : CandidateMap ρ) (rest : List Heard) :
    routerListen K peerIdFromBytes remoteDispatcher inner (e :: rest) =
      routerListen K peerIdFromBytes remoteDispatcher
        ((e.offer.bind (remoteCandidate K peerIdFromBytes remoteDispatcher)).elim inner
          (registerCandidate inner)) rest := by
  cases e with
  | gossipMessage topic data =>
    by_cases htopic : topic = poolOffer
    · cases hoffer : PoolOffer.codec.fromSlice data with
      | none => simp [routerListen, Heard.offer, htopic, hoffer]
      | some offer =>
        cases hc : remoteCandidate K peerIdFromBytes remoteDispatcher offer <;>
          simp [routerListen, Heard.offer, htopic, hoffer, hc]
    · simp [routerListen, Heard.offer, htopic]
  | peerConnected => rfl
  | peerDisconnected => rfl
  | lagged missed => rfl
  | closed => rfl
  | shutdown => exact absurd rfl he

/-- The registry of the router is filled by the offers it heard from peers whose ids parse. -/
theorem routerListen_fill (events : List Heard) (inner : CandidateMap ρ) :
    routerListen K peerIdFromBytes remoteDispatcher inner events =
      Latest.fill (fun c => c.nodeId) inner
        (((heardByRouter events).filterMap Heard.offer).filterMap
          (remoteCandidate K peerIdFromBytes remoteDispatcher)) := by
  induction events generalizing inner with
  | nil => rfl
  | cons e rest ih =>
    by_cases he : e = .shutdown
    · subst he
      rfl
    · have hheard : heardByRouter (e :: rest) = e :: heardByRouter rest := by simp [heardByRouter, he]
      rw [routerListen_cons K peerIdFromBytes remoteDispatcher he, ih, hheard]
      cases hoffer : e.offer with
      | none => simp [hoffer]
      | some offer =>
        cases hc : remoteCandidate K peerIdFromBytes remoteDispatcher offer <;>
          simp [hoffer, hc, Latest.fill, registerCandidate]

end

/-! ## Both -/

/-- What a client finds for a model in the table of its listener, whatever order the map gives its values
in. -/
structure FoundBySdk (events : List Heard) (model : String) (nowMs : Timestamp)
    (found : List CandidateEntry) : Prop where
  /-- Exactly the last offers that are open. -/
  offers : ∀ e, e ∈ found ↔ ∃ offer, lastOffer (heardBySdk events) offer.peerId = some offer ∧
    Open model nowMs offer ∧ e = .ofOffer offer
  once : (found.map CandidateEntry.peerIdBytes).Nodup
  ordered : found.Pairwise fun a b => b.availableSlots < a.availableSlots ∨
    (b.availableSlots = a.availableSlots ∧ b.totalStake ≤ a.totalStake)

theorem get_sdkListen (events : List Heard) (p : List UInt8) :
    (sdkListen .empty events).inner.get p = (lastOffer (heardBySdk events) p).map .ofOffer := by
  have hlast : Latest.last CandidateEntry.peerIdBytes
      (((heardBySdk events).filterMap Heard.offer).filterMap (some ∘ CandidateEntry.ofOffer)) p =
      (lastOffer (heardBySdk events) p).bind (some ∘ CandidateEntry.ofOffer) := by
    refine Latest.last_filterMap (fun o _ e he => ?_) fun _ _ _ => rfl
    obtain rfl := Option.some.inj he
    rfl
  rw [sdkListen_fill, Latest.get_fill, ← List.filterMap_eq_map, hlast]
  cases lastOffer (heardBySdk events) p <;> rfl

theorem foundBySdk (events : List Heard) (model : String) (nowMs : Timestamp) {values : List CandidateEntry}
    (hvalues : values.Perm (sdkListen .empty events).inner.values) :
    FoundBySdk events model nowMs (CandidateTable.eligibleFor values model nowMs) := by
  have hfill := sdkListen_fill events .empty
  have hkeyed : Latest.Keyed CandidateEntry.peerIdBytes (sdkListen .empty events).inner := by
    rw [hfill]
    exact Latest.keyed_fill Latest.keyed_empty _
  have hperm := List.perm_insertionSort CandidateEntry.before ((values.filter fun c =>
    satSub nowMs c.timestampMs ≤ SDK_CANDIDATE_TTL_MS).filter fun c => c.modelRefs.any (· == model))
  constructor
  · intro e
    have hmem : e ∈ CandidateTable.eligibleFor values model nowMs ↔
        e ∈ (sdkListen .empty events).inner.values ∧ model ∈ e.modelRefs ∧
          satSub nowMs e.timestampMs ≤ 300000 := by
      rw [← hvalues.mem_iff]
      refine hperm.mem_iff.trans ?_
      simp only [List.mem_filter, decide_eq_true_eq, List.any_eq_true, beq_iff_eq, exists_eq_right]
      exact ⟨fun h => ⟨h.1.1, h.2, h.1.2⟩, fun h => ⟨⟨h.1, h.2.2⟩, h.2.1⟩⟩
    rw [hmem, Latest.mem_values hkeyed, get_sdkListen]
    constructor
    · rintro ⟨hget, hopen⟩
      obtain ⟨offer, hoffer, rfl⟩ := Option.map_eq_some_iff.mp hget
      exact ⟨offer, hoffer, hopen, rfl⟩
    · rintro ⟨offer, hoffer, hopen, rfl⟩
      exact ⟨Option.map_eq_some_iff.mpr ⟨offer, hoffer, rfl⟩, hopen⟩
  · have hsub : ((values.filter fun c => satSub nowMs c.timestampMs ≤ SDK_CANDIDATE_TTL_MS).filter
        fun c => c.modelRefs.any (· == model)).Sublist values :=
      (List.filter_sublist).trans List.filter_sublist
    have hnodup : (values.map CandidateEntry.peerIdBytes).Nodup :=
      (hvalues.map CandidateEntry.peerIdBytes).nodup_iff.mpr (Latest.values_keys_nodup hkeyed)
    exact (hperm.map _).nodup_iff.mpr (hnodup.sublist (hsub.map _))
  · exact List.pairwise_insertionSort
      (HeaviestFirst CandidateEntry.availableSlots fun c => OrderDual.toDual c.totalStake) _

section

variable {ρ π : Type} (K : Primitives) (peerIdFromBytes : List UInt8 → Option π)
  (remoteDispatcher : π → ρ → Outcome EventStream)

/-- How a router ranks its candidates for a model. -/
structure RankedByRouter (inner : CandidateMap ρ) (model : String) (nowMs : Timestamp)
    (ranked : List (RegisteredCandidate ρ)) : Prop where
  candidates : ∀ c, c ∈ ranked ↔ inner.get c.nodeId = some c ∧ model ∈ c.modelRefs ∧
    satSub nowMs c.lastSeenMs ≤ 300000
  once : (ranked.map fun c => c.nodeId).Nodup
  ordered : ranked.Pairwise fun a b => b.totalStake < a.totalStake ∨
    (b.totalStake = a.totalStake ∧ a.nodeId ≤ b.nodeId)
  /-- Nothing of the order of the map shows. -/
  settled : ranked = rankFor ⟨inner.values⟩ model nowMs

theorem eligibleFor_perm (values : List (RegisteredCandidate ρ)) (model : String) (nowMs : Timestamp) :
    (CandidateRegistry.eligibleFor ⟨values⟩ model nowMs).Perm
      (values.filter fun c => c.serves model && c.isFresh nowMs) :=
  (List.perm_insertionSort _ values).filter _

theorem rankedByRouter {inner : CandidateMap ρ} (hkeyed : Latest.Keyed (fun c => c.nodeId) inner)
    (model : String) (nowMs : Timestamp) {values : List (RegisteredCandidate ρ)}
    (hvalues : values.Perm inner.values) :
    RankedByRouter inner model nowMs (rankFor ⟨values⟩ model nowMs) := by
  have hperm := (List.perm_insertionSort RegisteredCandidate.before
    (CandidateRegistry.eligibleFor ⟨values⟩ model nowMs)).trans (eligibleFor_perm values model nowMs)
  have hnodup : (values.map fun c => c.nodeId).Nodup :=
    (hvalues.map _).nodup_iff.mpr (Latest.values_keys_nodup hkeyed)
  constructor
  · intro c
    refine hperm.mem_iff.trans ?_
    rw [List.mem_filter, hvalues.mem_iff, Latest.mem_values hkeyed]
    simp only [Bool.and_eq_true, RegisteredCandidate.serves, RegisteredCandidate.isFresh, decide_eq_true_eq,
      List.any_eq_true, beq_iff_eq, exists_eq_right]
    rfl
  · exact (hperm.map _).nodup_iff.mpr (hnodup.sublist (List.filter_sublist.map _))
  · exact List.pairwise_insertionSort
      (HeaviestFirst RegisteredCandidate.totalStake fun c => c.nodeId) _
  · refine sort_unique ?_ ?_
    · exact (eligibleFor_perm values model nowMs).trans
        ((hvalues.filter _).trans (eligibleFor_perm inner.values model nowMs).symm)
    · exact ((eligibleFor_perm values model nowMs).map _).nodup_iff.mpr
        (hnodup.sublist (List.filter_sublist.map _))

/-- The candidate under the node id of a peer is made of the last offer of the peer. -/
theorem get_routerListen {events : List Heard} (inner : CandidateMap ρ) {peer : List UInt8}
    (hparses : (peerIdFromBytes peer).isSome)
    (hinj : ∀ offer ∈ (heardByRouter events).filterMap Heard.offer, K.blake3 offer.peerId = K.blake3 peer →
      offer.peerId = peer) :
    (routerListen K peerIdFromBytes remoteDispatcher inner events).get (K.blake3 peer) =
      ((lastOffer (heardByRouter events) peer).bind
        (remoteCandidate K peerIdFromBytes remoteDispatcher)).or (inner.get (K.blake3 peer)) := by
  rw [routerListen_fill, Latest.get_fill, lastOffer,
    @Latest.last_filterMap _ _ _ PoolOffer.peerId peer]
  · intro offer hoffer c hc
    obtain ⟨p, -, rfl⟩ := Option.map_eq_some_iff.mp hc
    exact ⟨hinj offer hoffer, fun h => by rw [h]⟩
  · intro offer _ h
    simp [remoteCandidate, h, hparses]

/-- The peers that a client finds. -/
theorem found_peer {events : List Heard} {model : String} {nowMs : Timestamp} {found : List CandidateEntry}
    (h : FoundBySdk events model nowMs found) (peer : List UInt8) :
    (∃ e ∈ found, e.peerIdBytes = peer) ↔
      ∃ offer, lastOffer (heardBySdk events) peer = some offer ∧ Open model nowMs offer := by
  constructor
  · rintro ⟨e, he, rfl⟩
    obtain ⟨offer, hoffer, hopen, rfl⟩ := (h.offers e).mp he
    exact ⟨offer, hoffer, hopen⟩
  · rintro ⟨offer, hoffer, hopen⟩
    have hpeer : offer.peerId = peer := Latest.key_of_last hoffer
    exact ⟨.ofOffer offer, (h.offers _).mpr ⟨offer, by rw [hpeer]; exact hoffer, hopen, rfl⟩, hpeer⟩

/-- A client gives up before it asks anybody exactly where it found nobody. -/
theorem infer_discovery (maxRetries : Option U32) (answers : List (Option (List UInt8))) :
    Sdk.infer maxRetries answers = .error .discovery ↔ answers = [] := by
  have htry : ∀ some_answers, Sdk.tryCandidates some_answers ≠ .error .discovery := by
    intro some_answers
    fun_induction Sdk.tryCandidates some_answers with
    | case1 => simp
    | case2 rest ih => exact ih
    | case3 rest resp _ ih => exact ih
    | case4 rest resp _ => simp
  cases answers with
  | nil => simp [Sdk.infer]
  | cons a rest => simp [Sdk.infer, htry]

/-- Without a broken stream both listeners hear the same. -/
theorem heard_same {events : List Heard} (h : Heard.closed ∉ events) :
    heardBySdk events = heardByRouter events := by
  induction events with
  | nil => rfl
  | cons e rest ih =>
    have hrest := ih fun hmem => h (.tail e hmem)
    have he : e ≠ .closed := fun heq => h (heq ▸ .head rest)
    by_cases hs : e = .shutdown
    · simp [heardBySdk, heardByRouter, hs]
    · unfold heardBySdk heardByRouter at hrest ⊢
      rw [List.takeWhile_cons_of_pos (by simp [hs, he]), List.takeWhile_cons_of_pos (by simp [hs]), hrest]

/-- An announcement is heard as the offer it was made of. -/
theorem offer_announced {peer : List UInt8} {modelRefs : List String} {operator : Address}
    {supportsTee : Bool} {sentMs : Timestamp} {message : String × List UInt8}
    (h : announceModels peer modelRefs operator supportsTee sentMs = some message) :
    (Heard.gossipMessage message.1 message.2).offer = some {
      peerId := peer, modelRefs := modelRefs, operator := operator, totalStake := 1000000,
      supportsTee := supportsTee, timestampMs := sentMs, availableSlots := 1 } := by
  obtain ⟨data, hdata, rfl⟩ := Option.map_eq_some_iff.mp h
  simpa [Heard.offer] using PoolOffer.codec.fromSlice_encode hdata

/-- The last announcement of a node is its last offer. -/
theorem lastOffer_announced {before after : List Heard} {peer : List UInt8} {modelRefs : List String}
    {operator : Address} {supportsTee : Bool} {sentMs : Timestamp} {message : String × List UInt8}
    (hmessage : announceModels peer modelRefs operator supportsTee sentMs = some message)
    (hafter : ∀ offer ∈ after.filterMap Heard.offer, offer.peerId ≠ peer) :
    lastOffer (before ++ .gossipMessage message.1 message.2 :: after) peer = some {
      peerId := peer, modelRefs := modelRefs, operator := operator, totalStake := 1000000,
      supportsTee := supportsTee, timestampMs := sentMs, availableSlots := 1 } := by
  rw [lastOffer, List.filterMap_append, List.filterMap_cons_some (offer_announced hmessage)]
  exact Latest.last_of_split hafter

/-- Discovery goes by the last offer of each peer. -/
theorem discovery_by_last_offers {events : List Heard} {inner : CandidateMap ρ}
    (hkeyed : Latest.Keyed (fun c => c.nodeId) inner)
    (hinj : ∀ offer ∈ (heardByRouter events).filterMap Heard.offer,
      ∀ other ∈ (heardByRouter events).filterMap Heard.offer,
        K.blake3 offer.peerId = K.blake3 other.peerId → offer.peerId = other.peerId)
    (model : String) (nowMs : Timestamp) {sdkValues : List CandidateEntry}
    (hsdk : sdkValues.Perm (sdkListen .empty events).inner.values)
    {routerValues : List (RegisteredCandidate ρ)}
    (hrouter : routerValues.Perm (routerListen K peerIdFromBytes remoteDispatcher inner events).values) :
    FoundBySdk events model nowMs (CandidateTable.eligibleFor sdkValues model nowMs) ∧
    RankedByRouter (routerListen K peerIdFromBytes remoteDispatcher inner events) model nowMs
      (rankFor ⟨routerValues⟩ model nowMs) ∧
    (∀ peer, (peerIdFromBytes peer).isSome → (lastOffer (heardByRouter events) peer).isSome →
      (routerListen K peerIdFromBytes remoteDispatcher inner events).get (K.blake3 peer) =
        (lastOffer (heardByRouter events) peer).bind (remoteCandidate K peerIdFromBytes remoteDispatcher)) ∧
    (Heard.closed ∉ events → ∀ peer, (peerIdFromBytes peer).isSome →
      (lastOffer (heardByRouter events) peer).isSome →
      ((∃ e ∈ CandidateTable.eligibleFor sdkValues model nowMs, e.peerIdBytes = peer) ↔
        ∃ c ∈ rankFor ⟨routerValues⟩ model nowMs, c.nodeId = K.blake3 peer)) ∧
    (∀ before after peer modelRefs operator supportsTee sentMs message,
      announceModels peer modelRefs operator supportsTee sentMs = some message →
      heardBySdk events = before ++ .gossipMessage message.1 message.2 :: after →
      (∀ offer ∈ after.filterMap Heard.offer, offer.peerId ≠ peer) →
      ((∃ e ∈ CandidateTable.eligibleFor sdkValues model nowMs, e.peerIdBytes = peer) ↔
        model ∈ modelRefs ∧ satSub nowMs sentMs ≤ 300000)) ∧
    (∀ maxRetries send, inferOver sdkValues model nowMs maxRetries send = .error .discovery ↔
      ∀ peer offer, lastOffer (heardBySdk events) peer = some offer → ¬ Open model nowMs offer) := by
  have hfound := foundBySdk events model nowMs hsdk
  have hlistened : Latest.Keyed (fun c => c.nodeId)
      (routerListen K peerIdFromBytes remoteDispatcher inner events) := by
    rw [routerListen_fill]
    exact Latest.keyed_fill hkeyed _
  have hranked := rankedByRouter hlistened model nowMs hrouter
  have hget : ∀ peer, (peerIdFromBytes peer).isSome → (lastOffer (heardByRouter events) peer).isSome →
      (routerListen K peerIdFromBytes remoteDispatcher inner events).get (K.blake3 peer) =
        (lastOffer (heardByRouter events) peer).bind
          (remoteCandidate K peerIdFromBytes remoteDispatcher) := by
    intro peer hparses hsome
    obtain ⟨offer, hoffer⟩ := Option.isSome_iff_exists.mp hsome
    have hpeer : offer.peerId = peer := Latest.key_of_last hoffer
    rw [get_routerListen K peerIdFromBytes remoteDispatcher inner hparses fun other hother heq =>
      (hinj other hother offer (Latest.mem_of_last hoffer) (by rw [heq, hpeer])).trans hpeer, hoffer]
    obtain ⟨p, hp⟩ := Option.isSome_iff_exists.mp hparses
    simp [remoteCandidate, hpeer, hp]
  refine ⟨hfound, hranked, hget, ?_, ?_, ?_⟩
  · intro hclosed peer hparses hsome
    rw [found_peer hfound, heard_same hclosed]
    have hget := hget peer hparses hsome
    obtain ⟨offer, hoffer⟩ := Option.isSome_iff_exists.mp hsome
    have hpeer : offer.peerId = peer := Latest.key_of_last hoffer
    obtain ⟨p, hp⟩ := Option.isSome_iff_exists.mp hparses
    obtain ⟨c, hc, hid, hrefs, hseen⟩ : ∃ c,
        (routerListen K peerIdFromBytes remoteDispatcher inner events).get (K.blake3 peer) = some c ∧
        c.nodeId = K.blake3 peer ∧ c.modelRefs = offer.modelRefs ∧ c.lastSeenMs = offer.timestampMs := by
      simp only [hoffer, Option.bind_some, remoteCandidate, hpeer, hp, Option.map_some] at hget
      exact ⟨_, hget, rfl, rfl, rfl⟩
    constructor
    · rintro ⟨same, hsame, hopen⟩
      obtain rfl : offer = same := Option.some.inj (hoffer.symm.trans hsame)
      exact ⟨c, (hranked.candidates c).mpr ⟨by rw [hid]; exact hc, hrefs ▸ hopen.1, hseen ▸ hopen.2⟩, hid⟩
    · rintro ⟨d, hd, hdid⟩
      obtain ⟨hdget, hserves, hfresh⟩ := (hranked.candidates d).mp hd
      rw [hdid, hc] at hdget
      obtain rfl := Option.some.inj hdget
      exact ⟨offer, hoffer, hrefs ▸ hserves, hseen ▸ hfresh⟩
  · intro before after peer modelRefs operator supportsTee sentMs message hmessage hevents hafter
    rw [found_peer hfound, hevents, lastOffer_announced hmessage hafter]
    simp [Open]
  · intro maxRetries send
    rw [inferOver, infer_discovery, List.map_eq_nil_iff, List.eq_nil_iff_forall_not_mem]
    constructor
    · rintro hnone peer offer hoffer hopen
      obtain ⟨e, he, -⟩ := (found_peer hfound peer).mpr ⟨offer, hoffer, hopen⟩
      exact hnone e he
    · intro hnone e he
      obtain ⟨offer, hoffer, hopen, -⟩ := (hfound.offers e).mp he
      exact hnone _ offer hoffer hopen

/-- A node heard of once is found for the five minutes after its announcement. -/
theorem discovery_by_last_offers_one_node : ∃ message,
    announceModels [7] ["m"] 0 true 1000 = some message ∧
    ∃ e ∈ CandidateTable.eligibleFor
      (sdkListen .empty [.peerConnected, .gossipMessage message.1 message.2]).inner.values "m" 301000,
      e.peerIdBytes = [7] := by
  obtain ⟨message, hmessage⟩ : ∃ message, announceModels [7] ["m"] 0 true 1000 = some message :=
    Option.isSome_iff_exists.mp (by decide)
  refine ⟨message, hmessage, ?_⟩
  have heard : ∀ offer ∈ (heardByRouter [.peerConnected, .gossipMessage message.1 message.2]).filterMap
      Heard.offer, offer.peerId = [7] := by
    have hoffer := offer_announced hmessage
    have hconnected : Heard.peerConnected.offer = none := rfl
    simp [heardByRouter, hoffer, hconnected]
  obtain ⟨-, -, -, -, hannounced, -⟩ := @discovery_by_last_offers _ _ toyPrimitives
    (fun bytes => if bytes = [] then none else some bytes) (fun _ (_ : Unit) => Outcome.pending)
    [.peerConnected, .gossipMessage message.1 message.2] _ Latest.keyed_empty
    (fun offer hoffer other hother _ => (heard offer hoffer).trans (heard other hother).symm) "m" 301000
    _ (.refl _) _ (.refl _)
  exact (hannounced [.peerConnected] [] [7] ["m"] 0 true 1000 message hmessage rfl (by simp)).mpr (by decide)

end

end Arknet.Laws
