import Arknet.Laws.HexText
import Arknet.Laws.TxIndex
import Arknet.Node.TxLookup

/-!
What `/v1/tx/:hash` answers after any run that keeps the index right: the height of a retained block with
the transaction, whatever the case of the letters, but its type and its sender only to a text without
capital letters (`tx_lookup`).
-/

namespace Arknet.Laws

open Machine Runs Arknet.Chain Arknet.Consensus Arknet.Inference Arknet.Node

/-- The text stands for this hash, in letters of either case and with or without a mark in front. -/
def WritesHash (text : String) (h : TxHash) : Prop := Hex.decode (utf8 (stripHexMark text)) = .ok h.toList

def HasCapital (text : String) : Prop := ∃ c ∈ utf8 (stripHexMark text), Hex.IsCapital c

/-! ## Both forms of a hash -/

/-- A hash is read back from either form that is handed out. -/
theorem writesHash_printed (h : TxHash) :
    WritesHash h.hexEncode h ∧ WritesHash ("0x" ++ h.hexEncode) h :=
  ⟨readHex_eq_ok.mp (readHex_hexEncode h).1, readHex_eq_ok.mp (readHex_hexEncode h).2⟩

theorem not_hasCapital_hexEncode {n : Nat} (b : Bytes n) :
    ¬ HasCapital b.hexEncode ∧ ¬ HasCapital ("0x" ++ b.hexEncode) := by
  have hnone := (Hex.decode_ok (Hex.decode_encode b.toList)).mp rfl
  unfold HasCapital
  rw [stripHexMark_hexEncode, stripHexMark_mark, utf8_hexEncode]
  exact ⟨fun ⟨c, hc, hcap⟩ => hnone c hc hcap, fun ⟨c, hc, hcap⟩ => hnone c hc hcap⟩

/-- The text itself is the form of one hash, and only without capital letters. -/
theorem hexEncode_eq_iff {text : String} {h x : TxHash} (hw : WritesHash text h) :
    x.hexEncode = stripHexMark text ↔ x = h ∧ ¬ HasCapital text := by
  have hcapital : Hex.encode h.toList = utf8 (stripHexMark text) ↔ ¬ HasCapital text := by
    rw [Hex.decode_ok hw, HasCapital]
    push Not
    rfl
  rw [← utf8_injective.eq_iff, utf8_hexEncode, ← hcapital]
  constructor
  · intro heq
    have hread : Hex.decode (Hex.encode x.toList) = .ok h.toList := by
      rw [heq]
      exact hw
    rw [Hex.decode_encode] at hread
    obtain rfl := Bytes.toList_injective (Except.ok.inj hread)
    exact ⟨rfl, heq⟩
  · rintro ⟨rfl, heq⟩
    exact heq

/-! ## Reading the path -/

theorem parseTxHash_eq_ok {clean : String} {h : TxHash} :
    parseTxHash clean = .ok h ↔ Hex.decode (utf8 clean) = .ok h.toList := by
  rw [← readHex_eq_ok, parseTxHash]
  split <;> rename_i hread <;> simp [hread]

theorem parseTxHash_status {clean : String} {e : TxLookupError} (he : parseTxHash clean = .error e) :
    e.status = 400 := by
  unfold parseTxHash at he
  split at he
  · obtain rfl := Except.error.inj he
    rfl
  · obtain rfl := Except.error.inj he
    rfl
  · cases he

/-! ## The answer -/

variable (K : Primitives)

/-- The first transaction of the block with this hash. -/
def FirstIn (b : Block) (h : TxHash) (stx : SignedTransaction) : Prop :=
  stx.hash K = h ∧ ∃ before after, b.txs = before ++ stx :: after ∧ ∀ x ∈ before, x.hash K ≠ h

/-- What a response says of a transaction. -/
structure Located (s : State) (text : String) (h : TxHash) (r : TxLookupResponse) : Prop where
  echo : r.txHash = "0x" ++ stripHexMark text
  retained : ∃ b, s.getBlock r.blockHeight = some b ∧ h ∈ txHashes K b
  described : ¬ HasCapital text → ∃ b stx, s.getBlock r.blockHeight = some b ∧ FirstIn K b h stx ∧
    r.txType = classifyTxType stx.tx ∧ r.src = debugPubKey stx.signer
  undescribed : HasCapital text → r.txType = "unknown" ∧ r.src = "unknown"

section

variable {K} {s : State} {text : String} {h : TxHash}

theorem firstIn_find {b : Block} {p : SignedTransaction → Bool} {stx : SignedTransaction}
    (hp : ∀ x, p x = true ↔ x.hash K = h) : b.txs.find? p = some stx ↔ FirstIn K b h stx := by
  rw [List.find?_eq_some_iff_append, hp, FirstIn]
  refine and_congr_right fun _ => exists₂_congr fun before after => and_congr_right fun _ => ?_
  refine forall₂_congr fun x _ => ?_
  rw [Bool.not_eq_true', ← Bool.not_eq_true, hp]

theorem findWritten_capital (hw : WritesHash text h) (hcap : HasCapital text) (b : Block) :
    findWritten K (stripHexMark text) b = none := by
  rw [findWritten, Option.map_eq_none_iff, List.find?_eq_none]
  intro stx _ heq
  exact ((hexEncode_eq_iff hw).mp (of_decide_eq_true heq)).2 hcap

theorem findWritten_plain (hw : WritesHash text h) (hplain : ¬ HasCapital text) {b : Block}
    (hmem : h ∈ txHashes K b) : ∃ stx, FirstIn K b h stx ∧
      findWritten K (stripHexMark text) b = some (classifyTxType stx.tx, debugPubKey stx.signer) := by
  have hp : ∀ x : SignedTransaction,
      decide ((x.hash K).hexEncode = stripHexMark text) = true ↔ x.hash K = h := fun x => by
    rw [decide_eq_true_iff, hexEncode_eq_iff hw]
    exact and_iff_left hplain
  obtain ⟨x, hx, hxh⟩ := List.mem_map.mp hmem
  have hsome : (b.txs.find? fun x => decide ((x.hash K).hexEncode = stripHexMark text)).isSome :=
    List.find?_isSome.mpr ⟨x, hx, (hp x).mpr hxh⟩
  obtain ⟨stx, hfind⟩ := Option.isSome_iff_exists.mp hsome
  exact ⟨stx, (firstIn_find hp).mp hfind, by rw [findWritten, hfind, Option.map_some]⟩

/-- From an index that is right, a hash that the text stands for is found exactly where it is retained. -/
theorem getTx_of_indexed (hs : TxIndexed K s) (hw : WritesHash text h) :
    (¬ RetainedTx K s h → getTx K (some s) text = .error (.notFound (stripHexMark text))) ∧
      (RetainedTx K s h → ∃ r, getTx K (some s) text = .ok r ∧ Located K s text h r) := by
  have hparse := parseTxHash_eq_ok.mpr hw
  constructor
  · intro hnone
    have hheight : s.getTxHeight h = none := by
      rw [Option.eq_none_iff_forall_ne_some]
      intro k hk
      exact hnone ((hs h).1.mp ⟨k, hk⟩)
    simp only [getTx, hparse, hheight]
  · intro hretained
    obtain ⟨k, hk⟩ := (hs h).1.mpr hretained
    obtain ⟨b, hb, hmem⟩ := (hs h).2 k hk
    refine ⟨_, by simp only [getTx, hparse, hk, hb, Option.bind_some]; rfl, rfl, ⟨b, hb, hmem⟩, ?_, ?_⟩
    · intro hplain
      obtain ⟨stx, hfirst, hfound⟩ := findWritten_plain hw hplain hmem
      exact ⟨b, stx, hb, hfirst, by rw [hfound, Option.getD_some], by rw [hfound, Option.getD_some]⟩
    · intro hcap
      rw [findWritten_capital hw hcap]
      exact ⟨rfl, rfl⟩

/-- A text that stands for no hash is refused, whatever the chain holds. -/
theorem getTx_unread (hno : ∀ h, ¬ WritesHash text h) :
    ∃ e, getTx K (some s) text = .error e ∧ e.status = 400 := by
  cases hparse : parseTxHash (stripHexMark text) with
  | ok h => exact absurd (parseTxHash_eq_ok.mp hparse) (hno h)
  | error e => exact ⟨e, by simp only [getTx, hparse], parseTxHash_status hparse⟩

end

/-! ## The law -/

/-- After a run along which the index stays right, every text is refused as unreadable, not found exactly
where no retained block has the transaction, or answered with a retained block that has it. The two forms
in which a hash is handed out stand for it and are described. -/
theorem tx_lookup {s t : State} {hist : List (Block × Replay)} (run : Run K s hist t)
    (hs : TxIndexed K s)
    (hapart : Along (fun u p u' => Commits K u p.1 p.2 u') s (fun u p => LogsApart K u p.1) hist) :
    (∀ text, (∀ h, ¬ WritesHash text h) → ∃ e, getTx K (some t) text = .error e ∧ e.status = 400) ∧
    (∀ text h, WritesHash text h →
      (¬ RetainedTx K t h → getTx K (some t) text = .error (.notFound (stripHexMark text))) ∧
      (RetainedTx K t h → ∃ r, getTx K (some t) text = .ok r ∧ Located K t text h r)) ∧
    ∀ h : TxHash, WritesHash h.hexEncode h ∧ WritesHash ("0x" ++ h.hexEncode) h ∧
      ¬ HasCapital h.hexEncode ∧ ¬ HasCapital ("0x" ++ h.hexEncode) := by
  have hindexed : TxIndexed K t := by
    refine Steps.invariant_along (TxIndexed K) hs ?_ (run_iff_steps.mp run) hapart
    intro u p u' hu hC hstep
    exact (commits_txIndexed hu hstep).mpr hC
  refine ⟨fun text hno => getTx_unread hno, fun text h hw => getTx_of_indexed hindexed hw, fun h => ?_⟩
  have hwrites := writesHash_printed h
  have hplain := not_hasCapital_hexEncode h
  exact ⟨hwrites.1, hwrites.2, hplain.1, hplain.2⟩

theorem tx_lookup_stray : ∃ r, Located toyPrimitives strayState ("0x" ++ (strayTx.hash toyPrimitives).hexEncode)
      (strayTx.hash toyPrimitives) r ∧
    getTx toyPrimitives (some strayState) ("0x" ++ (strayTx.hash toyPrimitives).hexEncode) = .ok r := by
  have run := Run.nil.snoc firstStray_commits
  have h := tx_lookup toyPrimitives run (nothing_indexed _)
    ((along_snoc (commits_deterministic toyPrimitives) .nil).mpr ⟨along_nil, firstStray_apart⟩)
  have hretained : RetainedTx toyPrimitives strayState (strayTx.hash toyPrimitives) := by
    refine ⟨1, _, commits_block firstStray_commits, ?_⟩
    rw [txHashes, sealBlock_txs]
    exact List.mem_cons_self
  obtain ⟨r, hr, hlocated⟩ := (h.2.1 _ _ (h.2.2 (strayTx.hash toyPrimitives)).2.1).2 hretained
  exact ⟨r, hlocated, hr⟩

end Arknet.Laws
