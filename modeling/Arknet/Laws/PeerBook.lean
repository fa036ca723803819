import Arknet.Network.PeerBook

/-!
What the book of peers is worth: after any run of connections, handshakes, failing writes, crashes and
restarts the file holds a whole book, the one that was live at the last write that succeeded, and a
restart goes on from there.
-/

namespace Arknet.Laws

open Machine Store Arknet.Network

section

variable {ι Text : Type} [LinearOrder ι] (F : PeerFormats ι Text) (expected : HandshakeInfo)

/-- Every row stands under the id it names. -/
def Named (c : Column ι PeerRecord) : Prop := ∀ p r, c.get p = some r → r.peerId = F.peerIdToString p

variable {F}

omit [LinearOrder ι] in
/-- What a node says of itself passes exactly at nodes of its version and network. -/
theorem judge_toAgentVersion {i : HandshakeInfo} (h : F.handshakeFromJson (F.handshakeToJson i) = some i) :
    judge F expected (toAgentVersion F i) =
      if i.version = expected.version ∧ i.networkId = expected.networkId then .compatible i
      else .rejected := by
  have hstrip : stripAgent (toAgentVersion F i) = some (F.handshakeToJson i) := by
    simp [stripAgent, toAgentVersion]
  unfold judge fromAgentVersion
  simp only [hstrip, h, HandshakeInfo.checkCompatible]
  by_cases hv : i.version = expected.version
  · by_cases hn : i.networkId = expected.networkId
    · simp [hv, hn]
    · simp [hv, hn]
  · simp [hv]

theorem named_empty : Named F (.empty : Column ι PeerRecord) := by
  intro p r h
  cases h

/-- Reading the rows of a book back gives the book, whatever order they were written in. -/
theorem collect_snapshot (hF : F.RoundTrip) {b : PeerBook ι Text} (hn : Named F b.entries) :
    PeerBook.collect F b.snapshot = b.entries := by
  have hrows : b.entries.values.filterMap (fun r => (F.parsePeerId r.peerId).map fun p => (p, some r)) =
      b.entries.entries.map fun e => (e.1, some e.2) := by
    rw [Column.values, List.filterMap_map, ← List.filterMap_eq_map]
    refine List.filterMap_congr fun e he => ?_
    have hname := hn e.1 e.2 (Column.get_eq_some.mpr he)
    simp only [Function.comp_apply, hname, hF.peerId, Option.map_some]
  have hperm : (b.snapshot.filterMap fun r => (F.parsePeerId r.peerId).map fun p => (p, some r)).Perm
      (b.entries.entries.map fun e => (e.1, some e.2)) := by
    rw [← hrows]
    exact (List.mergeSort_perm _ _).filterMap _
  have hkeys : ((b.snapshot.filterMap fun r => (F.parsePeerId r.peerId).map fun p => (p, some r)).map
      Prod.fst).Nodup := by
    rw [(hperm.map Prod.fst).nodup_iff, List.map_map]
    exact b.entries.keys_nodup
  refine Column.ext_get fun p => ?_
  cases hget : b.entries.get p with
  | none =>
    refine Column.get_writeAll_of_notMem _ fun w hw hp => ?_
    obtain ⟨e, he, rfl⟩ := List.mem_map.mp (hperm.mem_iff.mp hw)
    have hsome := Column.get_eq_some.mpr he
    rw [hp, hget] at hsome
    cases hsome
  | some r =>
    refine Column.get_writeAll_of_mem _ (List.pairwise_map.mp hkeys) (hperm.mem_iff.mpr ?_)
    exact List.mem_map.mpr ⟨(p, r), Column.get_eq_some.mp hget, rfl⟩

/-- A flush leaves the book alone; a finished one leaves it in the file as well. -/
theorem flush_spec (hF : F.RoundTrip) {b : PeerBook ι Text} (hn : Named F b.entries) (io : Io Text) :
    (b.flush F io).1.entries = b.entries ∧
      PeerBook.loadEntries F true (b.flush F io).1.files.path =
        if io matches .done then b.entries else PeerBook.loadEntries F true b.files.path := by
  cases io with
  | done =>
    refine ⟨rfl, ?_⟩
    simp only [PeerBook.flush, writeAtomically, PeerBook.loadEntries, hF.records, if_true]
    exact collect_snapshot hF hn
  | createFailed e => exact ⟨rfl, rfl⟩
  | writeFailed left e => exact ⟨rfl, rfl⟩
  | renameFailed e => exact ⟨rfl, rfl⟩

/-! ## The abstract book -/

/-- Which peers are known now, and which would be known after a restart. -/
structure KnownPeers (ι : Type) where
  live : ι → Option PeerRecord
  durable : ι → Option PeerRecord

namespace KnownPeers

def blank : KnownPeers ι := ⟨fun _ => none, fun _ => none⟩

/-- A change and the write that follows it. -/
def saved (k : KnownPeers ι) (io : Io Text) (live : ι → Option PeerRecord) : KnownPeers ι :=
  ⟨live, if io matches .done then live else k.durable⟩

variable (F)

def next (k : KnownPeers ι) : PeerEvent ι Text → KnownPeers ι
  | .connectionEstablished peer addr now io =>
    k.saved io (Function.update k.live peer (some (PeerBook.touched F peer addr now (k.live peer))))
  | .connectionClosed _ => k
  | .identified peer agentVersion io =>
    if judge F expected agentVersion = .rejected ∧ (k.live peer).isSome then
      k.saved io (Function.update k.live peer none)
    else k
  | .shutdown io => k.saved io k.live
  | .restart readable => { k with live := if readable then k.durable else fun _ => none }

def after (events : List (PeerEvent ι Text)) : KnownPeers ι := events.foldl (next F expected) blank

end KnownPeers

variable (F) in
/-- The book and its file stand for the abstract book. -/
structure Refines (b : PeerBook ι Text) (k : KnownPeers ι) : Prop where
  named : Named F b.entries
  namedFile : Named F (PeerBook.loadEntries F true b.files.path)
  live : b.entries.get = k.live
  durable : (PeerBook.loadEntries F true b.files.path).get = k.durable

/-- A change of the entries and its flush. -/
theorem refines_flush (hF : F.RoundTrip) {b : PeerBook ι Text} {k : KnownPeers ι} (h : Refines F b k)
    {c : Column ι PeerRecord} (hc : Named F c) (io : Io Text) :
    Refines F (PeerBook.flush F { b with entries := c } io).1 (k.saved io c.get) := by
  obtain ⟨hentries, hfile⟩ := flush_spec hF (b := { b with entries := c }) hc io
  refine ⟨by rw [hentries]; exact hc, ?_, by rw [hentries]; rfl, ?_⟩
  · rw [hfile]
    split
    · exact hc
    · exact h.namedFile
  · rw [hfile]
    unfold KnownPeers.saved
    split
    · rfl
    · exact h.durable

theorem get_insert_update (c : Column ι PeerRecord) (p : ι) (r : PeerRecord) :
    (c.insert p r).get = Function.update c.get p (some r) := by
  funext q
  rw [Column.get_insert, Function.update_apply]
  exact if_congr eq_comm rfl rfl

theorem get_erase_update (c : Column ι PeerRecord) (p : ι) :
    (c.erase p).get = Function.update c.get p none := by
  funext q
  rw [Column.get_erase, Function.update_apply]
  exact if_congr eq_comm rfl rfl

theorem named_insert {c : Column ι PeerRecord} (h : Named F c) (p : ι) (addr : String) (now : U64) :
    Named F (c.insert p (PeerBook.touched F p addr now (c.get p))) := by
  intro q r hr
  rw [Column.get_insert] at hr
  split at hr
  · rename_i hq
    obtain rfl := Option.some.inj hr
    subst hq
    cases hget : c.get p with
    | none => rfl
    | some old => exact h p old hget
  · exact h q r hr

theorem named_erase {c : Column ι PeerRecord} (h : Named F c) (p : ι) : Named F (c.erase p) := by
  intro q r hr
  rw [Column.get_erase] at hr
  split at hr
  · cases hr
  · exact h q r hr

/-- One event, on both levels. -/
theorem refines_step (hF : F.RoundTrip) {b : PeerBook ι Text} {k : KnownPeers ι} (h : Refines F b k)
    (e : PeerEvent ι Text) :
    Refines F (handlePeerEvent F expected b e).1 (k.next F expected e) := by
  cases e with
  | connectionEstablished peer addr now io =>
    have hflush := refines_flush hF h (named_insert h.named peer addr now) io
    rw [get_insert_update] at hflush
    simp only [KnownPeers.next, ← h.live]
    exact hflush
  | connectionClosed peer => exact h
  | identified peer agentVersion io =>
    simp only [handlePeerEvent, KnownPeers.next, ← h.live]
    cases judge F expected agentVersion with
    | compatible remote => exact h
    | foreign => exact h
    | rejected =>
      cases hget : b.entries.get peer with
      | none => simpa [PeerBook.remove, hget] using h
      | some r =>
        have hflush := refines_flush hF h (named_erase h.named peer) io
        rw [get_erase_update] at hflush
        simpa [PeerBook.remove, hget] using hflush
  | shutdown io =>
    have hflush := refines_flush hF h h.named io
    rw [h.live] at hflush
    exact hflush
  | restart readable =>
    cases readable with
    | true => exact ⟨h.namedFile, h.namedFile, h.durable, h.durable⟩
    | false =>
      have hempty : PeerBook.loadEntries F false b.files.path = .empty := by
        unfold PeerBook.loadEntries
        split
        · rfl
        · rfl
      refine ⟨?_, h.namedFile, ?_, h.durable⟩
      · simp only [handlePeerEvent, PeerBook.load, hempty]
        exact named_empty
      · simp only [handlePeerEvent, PeerBook.load, hempty]
        rfl

/-! ## Runs -/

/-- A data directory without a book. -/
def freshBook : PeerBook ι Text := ⟨.empty, ⟨none, none⟩⟩

theorem refines_run (hF : F.RoundTrip) (events : List (PeerEvent ι Text)) :
    Refines F (runPeerEvents F expected freshBook events) (KnownPeers.after F expected events) := by
  induction events using List.reverseRecOn with
  | nil => exact ⟨named_empty, named_empty, rfl, rfl⟩
  | append_singleton past e ih =>
    simp only [runPeerEvents, KnownPeers.after, List.foldl_append, List.foldl_cons, List.foldl_nil]
    exact refines_step expected hF ih e

/-! ## Rows -/

def connectionTime : PeerEvent ι Text → Option U64
  | .connectionEstablished _ _ now _ => some now
  | _ => none

/-- The clock of the connections does not run backwards. -/
def Clocked (events : List (PeerEvent ι Text)) : Prop :=
  (events.filterMap connectionTime).Pairwise (· ≤ ·)

/-- What a row says of its peer is true of the events: it holds the addresses of connections, each
once, and the time of a connection. -/
structure RowOf (events : List (PeerEvent ι Text)) (p : ι) (r : PeerRecord) : Prop where
  nodup : r.addrs.Nodup
  addrs : ∀ a ∈ r.addrs, ∃ now io, .connectionEstablished p a now io ∈ events
  lastSeen : ∃ a io, .connectionEstablished p a r.lastSeenMs io ∈ events
  ordered : r.firstSeenMs ≤ r.lastSeenMs

omit [LinearOrder ι] in
theorem RowOf.mono {past : List (PeerEvent ι Text)} {e : PeerEvent ι Text} {p : ι} {r : PeerRecord}
    (h : RowOf past p r) : RowOf (past ++ [e]) p r where
  nodup := h.nodup
  addrs := fun a ha => by
    obtain ⟨now, io, hmem⟩ := h.addrs a ha
    exact ⟨now, io, List.mem_append_left _ hmem⟩
  lastSeen := by
    obtain ⟨a, io, hmem⟩ := h.lastSeen
    exact ⟨a, io, List.mem_append_left _ hmem⟩
  ordered := h.ordered

omit [LinearOrder ι] in
theorem rowOf_touched {past : List (PeerEvent ι Text)} {p : ι} {addr : String} {now : U64} {io : Io Text}
    {existing : Option PeerRecord} (h : ∀ r, existing = some r → RowOf past p r)
    (hclock : Clocked (past ++ [.connectionEstablished p addr now io])) :
    RowOf (past ++ [.connectionEstablished p addr now io]) p (PeerBook.touched F p addr now existing) := by
  have hhere : PeerEvent.connectionEstablished p addr now io ∈
      past ++ [PeerEvent.connectionEstablished p addr now io] := List.mem_append_right _ List.mem_cons_self
  cases existing with
  | none =>
    refine ⟨List.nodup_singleton _, fun a ha => ?_, ⟨addr, io, hhere⟩, le_refl _⟩
    rw [List.mem_singleton.mp ha]
    exact ⟨now, io, hhere⟩
  | some r =>
    have hrow := (h r rfl).mono (e := .connectionEstablished p addr now io)
    obtain ⟨a₀, io₀, hmem⟩ := (h r rfl).lastSeen
    have hle : r.lastSeenMs ≤ now := by
      rw [Clocked, List.filterMap_append, List.pairwise_append] at hclock
      exact hclock.2.2 _ (List.mem_filterMap.mpr ⟨_, hmem, rfl⟩) _ List.mem_cons_self
    refine ⟨?_, fun a ha => ?_, ⟨addr, io, hhere⟩, le_trans hrow.ordered hle⟩
    · simp only [PeerBook.touched, Option.getD_some]
      split
      · exact hrow.nodup
      · rename_i hnew
        rw [← List.concat_eq_append]
        exact hrow.nodup.concat hnew
    · simp only [PeerBook.touched, Option.getD_some] at ha
      split at ha
      · exact hrow.addrs a ha
      · rcases List.mem_append.mp ha with hold | hnew
        · exact hrow.addrs a hold
        · rw [List.mem_singleton.mp hnew]
          exact ⟨now, io, hhere⟩

/-- Both halves of the abstract book hold rows that the events account for. -/
def BookAccounted (events : List (PeerEvent ι Text)) (k : KnownPeers ι) : Prop :=
  ∀ p r, k.live p = some r ∨ k.durable p = some r → RowOf events p r

omit [LinearOrder ι] in
theorem accounted_saved {events : List (PeerEvent ι Text)} {k : KnownPeers ι} (h : BookAccounted events k)
    {live : ι → Option PeerRecord} (hlive : ∀ p r, live p = some r → RowOf events p r) (io : Io Text) :
    BookAccounted events (k.saved io live) := by
  rintro p r (hr | hr)
  · exact hlive p r hr
  · unfold KnownPeers.saved at hr
    dsimp only at hr
    split at hr
    · exact hlive p r hr
    · exact h p r (.inr hr)

theorem accounted_run (events : List (PeerEvent ι Text)) (hclock : Clocked events) :
    BookAccounted events (KnownPeers.after F expected events) := by
  induction events using List.reverseRecOn with
  | nil =>
    rintro p r (hr | hr)
    · cases hr
    · cases hr
  | append_singleton past e ih =>
    have hpast := ih (by
      rw [Clocked, List.filterMap_append] at hclock
      exact (List.pairwise_append.mp hclock).1)
    simp only [KnownPeers.after, List.foldl_append, List.foldl_cons, List.foldl_nil]
    change BookAccounted _ ((KnownPeers.after F expected past).next F expected e)
    generalize KnownPeers.after F expected past = k at hpast
    have hold : BookAccounted (past ++ [e]) k := fun p r hr => (hpast p r hr).mono
    cases e with
    | connectionEstablished peer addr now io =>
      refine accounted_saved hold (fun p r hr => ?_) io
      rw [Function.update_apply] at hr
      split at hr
      · rename_i hp
        obtain rfl := Option.some.inj hr
        subst hp
        exact rowOf_touched (fun r hr => hpast p r (.inl hr)) hclock
      · exact hold p r (.inl hr)
    | connectionClosed peer => exact hold
    | identified peer agentVersion io =>
      simp only [KnownPeers.next]
      split
      · refine accounted_saved hold (fun p r hr => ?_) io
        rw [Function.update_apply] at hr
        split at hr
        · cases hr
        · exact hold p r (.inl hr)
      · exact hold
    | shutdown io => exact accounted_saved hold (fun p r hr => hold p r (.inl hr)) io
    | restart readable =>
      rintro p r (hr | hr)
      · cases readable with
        | true => exact hold p r (.inr hr)
        | false => cases hr
      · exact hold p r (.inr hr)

/-! ## Without failures -/

/-- The writes of an event succeed, and a restart can read the file. -/
def ReliableEvent : PeerEvent ι Text → Prop
  | .connectionEstablished _ _ _ io => io = .done
  | .connectionClosed _ => True
  | .identified _ _ io => io = .done
  | .shutdown io => io = .done
  | .restart readable => readable = true

variable (F) in
/-- What one event says about one peer: restarts say nothing. -/
def aboutPeer (p : ι) (r : Option PeerRecord) : PeerEvent ι Text → Option PeerRecord
  | .connectionEstablished peer addr now _ =>
    if p = peer then some (PeerBook.touched F peer addr now r) else r
  | .identified peer agentVersion _ =>
    if p = peer ∧ judge F expected agentVersion = .rejected then none else r
  | .connectionClosed _ => r
  | .shutdown _ => r
  | .restart _ => r

/-- Without failures the file is never behind the book, and restarts are not seen. -/
theorem reliable_run (events : List (PeerEvent ι Text)) (h : ∀ e ∈ events, ReliableEvent e) :
    (KnownPeers.after F expected events).durable = (KnownPeers.after F expected events).live ∧
      ∀ p, (KnownPeers.after F expected events).live p = events.foldl (aboutPeer F expected p) none := by
  induction events using List.reverseRecOn with
  | nil => exact ⟨rfl, fun _ => rfl⟩
  | append_singleton past e ih =>
    obtain ⟨hsync, hlive⟩ := ih fun e he => h e (List.mem_append_left _ he)
    have hlast := h e (List.mem_append_right _ List.mem_cons_self)
    simp only [KnownPeers.after, List.foldl_append, List.foldl_cons, List.foldl_nil] at hsync hlive ⊢
    simp only [← hlive]
    generalize List.foldl (KnownPeers.next F expected) .blank past = k at hsync
    cases e with
    | connectionEstablished peer addr now io =>
      obtain rfl : io = .done := hlast
      refine ⟨rfl, fun p => ?_⟩
      simp only [KnownPeers.next, KnownPeers.saved, Function.update_apply, aboutPeer]
      split
      · rename_i hp
        rw [hp]
      · rfl
    | connectionClosed peer => exact ⟨hsync, fun _ => rfl⟩
    | identified peer agentVersion io =>
      obtain rfl : io = .done := hlast
      simp only [KnownPeers.next, aboutPeer]
      cases judge F expected agentVersion with
      | compatible remote => simpa using hsync
      | foreign => simpa using hsync
      | rejected =>
        cases hknown : k.live peer with
        | none =>
          refine ⟨by simpa using hsync, fun p => ?_⟩
          simp only [Option.isSome_none, Bool.false_eq_true, and_false, if_false, and_true]
          split
          · rename_i hp
            rw [hp, hknown]
          · rfl
        | some r =>
          refine ⟨rfl, fun p => ?_⟩
          simp [KnownPeers.saved, Function.update_apply]
    | shutdown io =>
      obtain rfl : io = .done := hlast
      exact ⟨rfl, fun _ => rfl⟩
    | restart readable =>
      obtain rfl : readable = true := hlast
      exact ⟨rfl, fun p => congrFun hsync p⟩

/-- The book of peers over any run from a new data directory, with writes that fail at any point,
crashes and restarts: memory and file stand for the abstract book at every moment, every row is true of
the events, and where no write fails the book is what each peer's own events make of it, restarts or
not. -/
theorem peer_book_durable (hF : F.RoundTrip) (events : List (PeerEvent ι Text)) :
    Refines F (runPeerEvents F expected freshBook events) (KnownPeers.after F expected events) ∧
      (Clocked events → ∀ p r, (runPeerEvents F expected freshBook events).entries.get p = some r →
        RowOf events p r) ∧
      ((∀ e ∈ events, ReliableEvent e) → ∀ p, (runPeerEvents F expected freshBook events).entries.get p =
        events.foldl (aboutPeer F expected p) none) := by
  have href := refines_run expected hF events
  refine ⟨href, fun hclock p r hr => ?_, fun hrel p => ?_⟩
  · rw [href.live] at hr
    exact accounted_run expected events hclock p r (.inl hr)
  · rw [href.live]
    exact (reliable_run expected events hrel).2 p

end

/-- Ids that are their own text, and a file of rows as they are. -/
def plainFormats : PeerFormats String (List PeerRecord) where
  peerIdToString := id
  parsePeerId := some
  recordsToJson := id
  recordsFromJson := some
  handshakeToJson i := i.networkId
  handshakeFromJson s := some ⟨HANDSHAKE_VERSION, s, "", ⟨false, false, false, false⟩⟩

theorem plainFormats_roundTrip : plainFormats.RoundTrip := ⟨fun _ => rfl, fun _ => rfl⟩

def devnet : HandshakeInfo := ⟨HANDSHAKE_VERSION, "devnet", "", ⟨false, false, false, false⟩⟩

/-- Two connections to one peer around a restart, and a peer of another network. -/
def restarted : List (PeerEvent String (List PeerRecord)) :=
  [.connectionEstablished "a" "/ip4/1" 1 .done, .connectionEstablished "b" "/ip4/2" 2 .done,
    .restart true, .identified "b" "arknet/mainnet" .done, .connectionEstablished "a" "/ip6/1" 5 .done]

theorem peer_book_durable_restarted :
    Refines plainFormats (runPeerEvents plainFormats devnet freshBook restarted)
        (KnownPeers.after plainFormats devnet restarted) ∧
      (∃ r, (runPeerEvents plainFormats devnet freshBook restarted).entries.get "a" = some r ∧
        r.addrs = ["/ip4/1", "/ip6/1"] ∧ RowOf restarted "a" r) ∧
      (runPeerEvents plainFormats devnet freshBook restarted).entries.get "b" = none := by
  obtain ⟨href, hrows, hreliable⟩ := peer_book_durable devnet plainFormats_roundTrip restarted
  have hrel : ∀ e ∈ restarted, ReliableEvent e := by
    intro e he
    simp only [restarted, List.mem_cons, List.not_mem_nil, or_false] at he
    rcases he with rfl | rfl | rfl | rfl | rfl <;> rfl
  have hclock : Clocked restarted := by
    unfold Clocked
    decide
  have ha : restarted.foldl (aboutPeer plainFormats devnet "a") none =
      some ⟨"a", ["/ip4/1", "/ip6/1"], 1, 5⟩ := by decide
  have hb : restarted.foldl (aboutPeer plainFormats devnet "b") none = none := by decide
  rw [← hreliable hrel] at ha hb
  exact ⟨href, ⟨_, ha, rfl, hrows hclock "a" _ ha⟩, hb⟩

end Arknet.Laws
